import Mathlib.Data.List.Nodup
import KnvProto.Tree.Canonical

/-!
# Values that hide nothing

A node that has been expanded may keep the bytes it was expanded from, and is
then written from them. `val.str.len` of 0 and `subnode_dirty` say that it must be
written again.

## The model

`Cached` is what holds of every node. Most of it (`Held`) an operation may break
and mend before it ends; what is about the value it makes true at its end, since
every function that changes a list empties the value and marks the node dirty.

Where it holds, `Serialize` writes the plain encoding (`plain_serialize`), which is
canonical again (`canon_plainVal`). It holds of new nodes and of what they are
expanded to.
-/

namespace KnvProto

namespace KnvNode

/-- A tag of children that the wire format can hold. -/
def ChildTag (tag : UInt32) : Prop := ucMaxMetaNum < tag ∧ tag.toNat < 2 ^ 29

/-- A tag of metas. -/
def MetaTag (tag : UInt32) : Prop := 0 < tag ∧ tag ≤ ucMaxMetaNum

/-- `metas[]` has different nodes at different tags, and no node of the future. -/
structure MetaIndex (n : KnvNode) : Prop where
  inj : n.metalist ≠ [] → ∀ t t' a, n.metas t = some a → n.metas t' = some a → t = t'
  old : n.metalist ≠ [] → ∀ t a, n.metas t = some a → a < n.slots

/-- What holds of a node whatever its value is. -/
structure Held (n : KnvNode) : Prop where
  /-- The two sizes fit each other. -/
  size : n.type = .string → n.evalSz = pbEvalLength n.tag .string 0 n.evalValSz.toNat
  /-- A key was made by `init`. -/
  keyInit : ∃ t v, n.key = KnvKey.init t v
  /-- A key is canonical, too. -/
  keyCanon : n.key.type = .string → Canon MetasFirst n.key.bytes
  /-- An expanded node with a key has it among its metas. -/
  keyed : n.type = .string → n.expanded = true → n.hasKey = true → n.metaAt 1 ≠ none
  index : MetaIndex n
  /-- Metas have small tags, and no key. -/
  metas : ∀ m ∈ n.metalist, MetaTag m.tag ∧ m.noKey = true
  /-- Children have large tags. -/
  children : ∀ c ∈ n.childlist, ChildTag c.tag

/-- The node's value is in use: it will be looked into, or is up to date. -/
def Settled (n : KnvNode) : Prop :=
  n.isFolded = true ∧ (n.val.str ≠ [] ∨ n.expanded = false) ∨ n.isFolded = false ∧ n.isClean = true

/-- What holds of every node: its value hides nothing. -/
structure Cached (n : KnvNode) : Prop extends Held n where
  /-- A clean node holds the encoding of what is below it. -/
  clean : n.isFolded = false → n.isClean = true → n.val.str = n.plainVal
  /-- A value that will be looked into is canonical. -/
  canon : n.type = .string → n.isFolded = true → Canon MetasFirst n.val.str
  /-- The cached size of a value in use is its length. -/
  len : n.type = .string → Settled n → n.evalValSz = n.val.str.length
  /-- The key of a node that is not expanded is the one in its value. -/
  key : n.expanded = false → n.hasKey = true → n.type = .string → n.key = KnvKey.ofBytes n.val.str
  /-- Over a dirty node, all are dirty. -/
  dirty : ∀ x ∈ n.metalist ++ n.childlist, x.subnodeDirty = true → n.subnodeDirty = true

/-! ### Serialization -/

theorem pbAdd_out {b b' : PbBuff} {bs : Bytes} (h : pbAdd b bs = .ok b') : b'.out = b.out ++ bs := by
  unfold pbAdd at h
  split at h
  · cases h
  · cases h
    rfl

/-- A field that has been added stands at the end. -/
theorem pbAddFieldVal_out {b b' : PbBuff} {tag : UInt32} {type : PbType} {val : PbVal}
    (h : pbAddFieldVal b tag type val = .ok b') : b'.out = b.out ++ PbField.encode ⟨tag, type, val⟩ := by
  by_cases hlen : (PbField.encode ⟨tag, type, val⟩).length ≤ b.left
  · rw [pbAddFieldVal_of_le hlen] at h
    cases h
    rfl
  · obtain ⟨e, he⟩ := pbAddFieldVal_of_lt (Nat.lt_of_not_le hlen)
    rw [he] at h
    cases h

theorem pbAddStringHead_out {b b' : PbBuff} {tag : UInt32} {size : ℕ} (h : pbAddStringHead b tag size = .ok b') :
    b'.out = b.out ++ stringHead tag size := by
  unfold pbAddStringHead at h
  cases htag : pbAddTag b .string tag with
  | error e => rw [htag] at h; cases h
  | ok b₁ =>
    rw [htag] at h
    rw [pbAdd_out (b := b₁) h, pbAdd_out (b := b) htag, stringHead, List.append_assoc]

theorem pbEvalLength_eq_stringHead (tag : UInt32) (i64 : UInt64) (size : ℕ) :
    pbEvalLength tag .string i64 size = (stringHead tag size).length + size := by
  rw [pbEvalLength, pbEvalTagLength, pbEvalVintLength_eq, pbEvalVintLength_eq, stringHead, List.length_append]

theorem of_ofFull {ret : ℤ} {x : Except PbFull PbBuff} {b : PbBuff} (h : ofFull ret x = .ok b) : x = .ok b := by
  cases x with
  | error e => cases h
  | ok b' => cases h; rfl

theorem addHead_out {n : KnvNode} {withHeader : Bool} {size : ℕ} {b b' : PbBuff}
    (h : n.addHead withHeader size b = .ok b') : b'.out = b.out ++ if withHeader then stringHead n.tag size else [] := by
  unfold addHead at h
  split at h
  · next hw => rw [pbAddStringHead_out (of_ofFull h), if_pos hw]
  · next hw =>
    cases h
    rw [if_neg hw, List.append_nil]

theorem addKey_out {n : KnvNode} {b b' : PbBuff} (h : n.addKey b = .ok b') : b'.out = b.out ++ n.keyBytes := by
  unfold addKey at h
  unfold keyBytes
  split at h
  · next hk => rw [pbAddFieldVal_out (of_ofFull h), if_pos hk, keyField]
  · next hk =>
    cases h
    rw [if_neg hk, List.append_nil]

/-- What `Serialize` writes is the plain encoding, with or without the header. -/
def Plain (n : KnvNode) : Prop :=
  ∀ len out, (n.serialize len true = .ok out → out = n.plain) ∧ (n.serialize len false = .ok out → out = n.plainVal)

theorem serializeAll_out {ret : ℤ} {len : ℕ} : ∀ {l : List KnvNode} {skipKey : Bool} {out out' : Bytes},
    (∀ x ∈ l, Plain x) → serializeAll ret skipKey l len out = .ok out' → out' = out ++ plainAll skipKey l := by
  intro l
  induction l with
  | nil =>
    intro skipKey out out' _ h
    rw [serializeAll_nil] at h
    cases h
    simp
  | cons x l ih =>
    intro skipKey out out' hl h
    have hl' := fun y hy => hl y (List.mem_cons_of_mem _ hy)
    rw [serializeAll_cons] at h
    rw [plainAll_cons]
    split at h
    · next hskip =>
      rw [if_pos hskip]
      exact ih hl' h
    · next hskip =>
      rw [if_neg hskip]
      split at h
      · cases h
      · next bs hbs =>
        rw [ih hl' h, ((hl x (List.mem_cons_self ..)) _ bs).1 hbs, List.append_assoc]

/-- A leaf is written from its value. -/
theorem encode_of_folded {n : KnvNode} (h : n.isFolded = true) : PbField.encode ⟨n.tag, n.type, n.val⟩ = n.plain := by
  rw [plain, plainVal_of_folded h, fieldOf]
  split
  · next ht => rw [ht]; rfl
  · rfl

/-- What makes `Serialize` write the plain encoding: the two sizes of an inner node fit each other, and a clean one
holds its encoding. -/
structure Honest (n : KnvNode) : Prop where
  size : n.isFolded = false → n.evalSz = pbEvalLength n.tag .string 0 n.evalValSz.toNat
  clean : n.isFolded = false → n.isClean = true → n.val.str = n.plainVal

/-- **What `Serialize` writes is the plain encoding**, if clean nodes hold theirs. -/
theorem plain_serialize {n : KnvNode} (h : All Honest n) (hs : Shaped n) : Plain n := by
  induction n using induct with
  | h n hms hcs =>
    have hmetas : ∀ x ∈ n.metalist, Plain x := fun x hx => hms x hx (h.metas x hx) (hs.metas x hx)
    have hchildren : ∀ x ∈ n.childlist, Plain x := fun x hx => hcs x hx (h.children x hx) (hs.children x hx)
    clear hms hcs
    have heval := evaluateSize_of_nonneg hs.here.evaluated
    cases hf : (n.isFolded || n.isClean) with
    | true =>
      -- the value is written, which is the plain one
      have hval : n.isFolded = true ∨ n.isFolded = false ∧ n.val.str = n.plainVal := by
        cases hfold : n.isFolded with
        | true => exact .inl rfl
        | false =>
          rw [hfold, Bool.false_or] at hf
          exact .inr ⟨rfl, h.here.clean hfold hf⟩
      intro len out
      refine ⟨fun hout => ?_, fun hout => ?_⟩
      · have hv : n.isValid = true := by
          by_contra hv
          obtain ⟨d, ms, cs⟩ := n
          rw [serialize, if_pos (by simpa using hv)] at hout
          cases hout
        rw [serialize_value hv hf] at hout
        cases hadd : pbAddFieldVal (pbInitBuff len) n.tag n.type n.val with
        | error e => rw [hadd] at hout; cases hout
        | ok b =>
          rw [hadd] at hout
          cases hout
          show b.out = n.plain
          rw [pbAddFieldVal_out hadd]
          rcases hval with hfold | ⟨hfold, hstr⟩
          · exact encode_of_folded hfold
          · have ht := type_of_not_folded hfold
            rw [plain, fieldOf, ht, if_pos rfl, ← hstr]
            rfl
      · obtain ⟨d, ms, cs⟩ := n
        rw [serialize] at hout
        split at hout
        · cases hout
        rw [if_neg Bool.false_ne_true] at hout
        split at hout
        · cases hout
        split at hout
        · cases hout
          rcases hval with hfold | ⟨-, hstr⟩
          · exact (plainVal_of_folded hfold).symm
          · exact hstr
        · cases hout
    | false =>
      rw [Bool.or_eq_false_iff] at hf
      have ht := type_of_not_folded hf.1
      have key : ∀ withHeader len out, n.serialize len withHeader = .ok out →
          out = (if withHeader then stringHead n.tag n.evalValSz.toNat else []) ++ n.plainVal ∧
            (out.length : ℤ) = if withHeader then n.evalSz else n.evalValSz := by
        intro withHeader len out hout
        by_cases hv : n.isValid = true
        swap
        · obtain ⟨d, ms, cs⟩ := n
          rw [serialize, if_pos (by simpa using hv)] at hout
          cases hout
        rw [serialize_again hv (by simp [hf]), heval] at hout
        split at hout
        · cases hout
        next b hb =>
        cases hhead : n.addHead withHeader n.evalValSz.toNat (pbInitBuff len) with
        | error e => rw [hhead] at hb; cases hb
        | ok b₁ =>
          rw [hhead] at hb
          have hout₁ := addHead_out hhead
          have hout₂ := addKey_out (b := b₁) hb
          split at hout
          · cases hout
          next out₁ hm =>
          split at hout
          · cases hout
          next out₂ hc =>
          by_cases hlen : (out₂.length : ℤ) = if withHeader then n.evalSz else n.evalValSz
          swap
          · rw [if_pos hlen] at hout
            cases hout
          · rw [if_neg (not_not_intro hlen)] at hout
            cases hout
            refine ⟨?_, hlen⟩
            rw [serializeAll_out hchildren hc, serializeAll_out hmetas hm, hout₂, hout₁, plainVal_of_not_folded hf.1]
            simp [pbInitBuff]
      intro len out
      refine ⟨fun hout => ?_, fun hout => (key false len out hout).1⟩
      obtain ⟨hbytes, hlen⟩ := key true len out hout
      simp only [if_true] at hbytes hlen
      -- the length in the header is right, as the whole length is
      have hsz : n.evalSz = ((stringHead n.tag n.evalValSz.toNat).length + n.evalValSz.toNat : ℕ) := by
        rw [h.here.size hf.1, pbEvalLength_eq_stringHead]
      have hval : n.evalValSz.toNat = n.plainVal.length := by
        rw [hbytes, List.length_append] at hlen
        omega
      rw [hbytes, plain, fieldOf, ht, if_pos rfl, encode_string, hval]

theorem Cached.honest {n : KnvNode} (h : Cached n) : Honest n := ⟨fun hf => h.size (type_of_not_folded hf), h.clean⟩

/-! ### The plain encoding is canonical -/

/-- The field a node is written as. -/
def toField (n : KnvNode) : PbField := (n.fieldOf n.plainVal).norm

/-- The metas that are written after the key. -/
def afterKey (skipKey : Bool) : List KnvNode → List KnvNode
  | [] => []
  | n :: l => if skipKey && n.tag == 1 then l else n :: l

theorem plainAll_false_eq (l : List KnvNode) : plainAll false l = encodeAll (l.map toField) := by
  induction l with
  | nil => simp
  | cons x l ih => rw [plainAll_false_cons, ih, List.map_cons, encodeAll_cons, toField, encode_norm, plain]

theorem plainAll_eq (skipKey : Bool) (l : List KnvNode) :
    plainAll skipKey l = encodeAll ((afterKey skipKey l).map toField) := by
  cases l with
  | nil => simp [afterKey]
  | cons x l =>
    rw [plainAll_cons, afterKey]
    split
    · exact plainAll_false_eq l
    · rw [← plainAll_false_cons]
      exact plainAll_false_eq (x :: l)

theorem mem_afterKey {skipKey : Bool} {l : List KnvNode} {x : KnvNode} (h : x ∈ afterKey skipKey l) : x ∈ l := by
  cases l with
  | nil => exact h
  | cons y l =>
    rw [afterKey] at h
    split at h
    · exact List.mem_cons_of_mem _ h
    · exact h

/-- The fields a node is written as, when it is written again. -/
def plainFields (n : KnvNode) : List PbField :=
  ((if n.hasKey then [n.keyField.norm] else []) ++ (afterKey n.hasKey n.metalist).map toField) ++ n.childlist.map toField

theorem plainVal_eq {n : KnvNode} (h : n.isFolded = false) : n.plainVal = encodeAll n.plainFields := by
  rw [plainVal_of_not_folded h, plainFields, encodeAll_append, encodeAll_append, plainAll_eq, plainAll_eq false, keyBytes]
  have hchildren : afterKey false n.childlist = n.childlist := by cases n.childlist <;> rfl
  rw [hchildren]
  cases n.hasKey <;> simp

/-- What holds of the key, the metas and the children holds of all fields. -/
theorem forall_plainFields {P : PbField → Prop} {n : KnvNode} (hkey : n.hasKey = true → P n.keyField.norm)
    (hms : ∀ x ∈ n.metalist, P x.toField) (hcs : ∀ x ∈ n.childlist, P x.toField) : ∀ f ∈ n.plainFields, P f := by
  intro f hf
  rcases List.mem_append.mp hf with hf | hf
  · rcases List.mem_append.mp hf with hf | hf
    · split at hf
      · next hk => exact List.mem_singleton.mp hf ▸ hkey hk
      · exact absurd hf List.not_mem_nil
    · obtain ⟨x, hx, rfl⟩ := List.mem_map.mp hf
      exact hms x (mem_afterKey hx)
  · obtain ⟨x, hx, rfl⟩ := List.mem_map.mp hf
    exact hcs x hx

/-- The values of a node fit the wire format: they are shorter than 2^31 bytes, and those of metas with tag 1 than
64 KiB. -/
structure Fits (n : KnvNode) : Prop where
  val : n.plainVal.length < 2 ^ 31
  key : ∀ m ∈ n.metalist, m.tag = 1 → m.type = .string → m.plainVal.length < 2 ^ 16

theorem val_toField (n : KnvNode) : n.toField.val.str = if n.type = .string then n.plainVal else [] := by
  rw [toField, fieldOf, PbField.norm]
  cases ht : n.type <;> simp [PbVal.norm]

theorem val_keyField (n : KnvNode) : n.keyField.norm.val.str = if n.key.type = .string then n.key.bytes else [] := by
  rw [keyField, PbField.norm, KnvKey.getValue]
  cases n.key.type <;> simp [PbVal.norm]

theorem MetaTag.ok {tag : UInt32} (h : MetaTag tag) : TagOk tag := by
  have h0 : (0 : UInt32).toNat < tag.toNat := h.1
  have h1 : tag.toNat ≤ (10 : UInt32).toNat := h.2
  have h2 : (10 : UInt32).toNat = 10 := rfl
  exact ⟨h0, by omega⟩

theorem ChildTag.ok {tag : UInt32} (h : ChildTag tag) : TagOk tag := by
  have h0 : (10 : UInt32).toNat < tag.toNat := h.1
  exact ⟨by omega, h.2⟩

theorem Held.short {n : KnvNode} (h : Held n) : n.key.bytes.length < 2 ^ 16 := by
  obtain ⟨t, v, hk⟩ := h.keyInit
  rw [hk]
  exact KnvKey.length_init_lt t v

/-- **What the plain encoder writes is canonical.** -/
theorem canon_plainVal {n : KnvNode} (h : All Cached n) (hfits : All Fits n) (ht : n.type = .string) :
    Canon MetasFirst n.plainVal := by
  induction n using induct with
  | h n hms hcs =>
    cases hf : n.isFolded with
    | true =>
      rw [plainVal_of_folded hf]
      exact h.here.canon ht hf
    | false =>
      have hheld := h.here.toHeld
      have hbelow : ∀ x, x ∈ n.metalist ∨ x ∈ n.childlist → x.toField.val.str.length < 2 ^ 64 ∧
          Canon MetasFirst x.toField.val.str := by
        intro x hx
        have hfx : Fits x := hx.elim (fun hx => (hfits.metas x hx).here) fun hx => (hfits.children x hx).here
        rw [val_toField]
        split
        · next htx =>
          refine ⟨by have := hfx.val; omega, ?_⟩
          rcases hx with hx | hx
          · exact hms x hx (h.metas x hx) (hfits.metas x hx) htx
          · exact hcs x hx (h.children x hx) (hfits.children x hx) htx
        · exact ⟨Nat.two_pow_pos 64, canon_nil _⟩
      have hkeylen : n.keyField.norm.val.str.length < 2 ^ 16 := by
        rw [val_keyField]
        split
        · exact hheld.short
        · exact Nat.two_pow_pos 16
      rw [plainVal_eq hf]
      refine .message ⟨⟨_, _, rfl, fun f hf' => ?_, fun f hf' => ?_⟩, ?_⟩ ?_ ?_
      · rcases List.mem_append.mp hf' with hf' | hf'
        · split at hf'
          · rw [List.mem_singleton.mp hf']
            exact (by decide : (1 : UInt32) ≤ ucMaxMetaNum)
          · exact absurd hf' List.not_mem_nil
        · obtain ⟨x, hx, rfl⟩ := List.mem_map.mp hf'
          exact (hheld.metas x (mem_afterKey hx)).1.2
      · obtain ⟨x, hx, rfl⟩ := List.mem_map.mp hf'
        exact UInt32.not_le.mpr (hheld.children x hx).1
      · refine forall_plainFields (fun _ _ => hkeylen) (fun x hx htag => ?_) fun x hx htag => ?_
        · rw [val_toField]
          split
          · next htx => exact hfits.here.key x hx htag htx
          · exact Nat.two_pow_pos 16
        · have hlt := (hheld.children x hx).1
          have htag' : x.tag = 1 := htag
          rw [htag'] at hlt
          exact absurd hlt (by decide)
      · exact forall_plainFields (fun _ => ⟨⟨(by decide : TagOk 1), by omega⟩, norm_norm _⟩)
          (fun x hx => ⟨⟨(hheld.metas x hx).1.ok, (hbelow x (.inl hx)).1⟩, norm_norm _⟩)
          fun x hx => ⟨⟨(hheld.children x hx).ok, (hbelow x (.inr hx)).1⟩, norm_norm _⟩
      · refine forall_plainFields (fun _ => ?_) (fun x hx => (hbelow x (.inl hx)).2) fun x hx => (hbelow x (.inr hx)).2
        rw [val_keyField]
        split
        · next htk => exact hheld.keyCanon htk
        · exact canon_nil _

theorem init_norm (t : PbType) (v : PbVal) : KnvKey.init t (some (v.norm t)) = KnvKey.init t (some v) := by
  cases t
  case fixed32 => rw [KnvKey.init, KnvKey.init, i32_norm]
  all_goals rfl

/-- A key fits the wire format. -/
theorem keyField_ok {n : KnvNode} (h : ∃ t v, n.key = KnvKey.init t v) : n.keyField.norm.Ok := by
  obtain ⟨t, v, hkey⟩ := h
  refine PbField.Ok.norm ⟨(by decide : TagOk 1), ?_⟩
  have hshort : n.key.bytes.length < 2 ^ 16 := hkey ▸ KnvKey.length_init_lt t v
  rw [keyField, KnvKey.getValue]
  split
  · exact Nat.lt_trans hshort (by decide)
  · exact Nat.two_pow_pos 64

/-- The key of a node is the one its encoding begins with. -/
theorem ofBytes_plainVal {n : KnvNode} (h : ∃ t v, n.key = KnvKey.init t v) (hf : n.isFolded = false)
    (hk : n.hasKey = true) : n.key = KnvKey.ofBytes n.plainVal := by
  obtain ⟨t, v, hkey⟩ := h
  have hok : n.keyField.norm.Ok := keyField_ok ⟨t, v, hkey⟩
  have hv : ∃ w, v = some w := by
    cases v with
    | some w => exact ⟨w, rfl⟩
    | none =>
      rw [hasKey, hkey] at hk
      simp at hk
  obtain ⟨w, rfl⟩ := hv
  have hval : KnvKey.init t (some (n.keyField.norm.val)) = n.key := by
    have hback := KnvKey.init_getValue_init t w
    rw [← hkey] at hback
    have htype : n.key.type = t := by rw [hkey, KnvKey.type_init]
    rw [keyField, PbField.norm, htype, init_norm, hback]
  rw [plainVal_eq hf, plainFields, if_pos hk, List.append_assoc, List.cons_append, encodeAll_cons,
    ofBytes_encode hok (norm_norm _), if_pos (show n.keyField.norm.tag = 1 from rfl)]
  have htype : n.keyField.norm.type = t := by
    show n.key.type = t
    rw [hkey, KnvKey.type_init]
  rw [htype, hval]

/-! ### New nodes -/

theorem canon_ofBytes {s : Bytes} (h : Canon MetasFirst s) (ht : (KnvKey.ofBytes s).type = .string) :
    Canon MetasFirst (KnvKey.ofBytes s).bytes := by
  cases h with
  | leaf hb =>
    rw [KnvKey.ofBytes, hb]
    exact canon_nil _
  | @message fs hfirst hok hstr =>
    cases fs with
    | nil => exact canon_nil _
    | cons f fs =>
      have hf := hok f (List.mem_cons_self ..)
      rw [encodeAll_cons, ofBytes_encode hf.1 hf.2] at ht ⊢
      split
      · next htag =>
        rw [if_pos htag, KnvKey.type_init] at ht
        have hlen := hfirst.short f (List.mem_cons_self ..) htag
        rw [ht, KnvKey.init, Nat.mod_eq_of_lt hlen, List.take_length]
        exact hstr f (List.mem_cons_self ..)
      · exact canon_nil _

theorem ofBytes_eq_init (s : Bytes) : ∃ t v, KnvKey.ofBytes s = KnvKey.init t v := by
  rw [KnvKey.ofBytes]
  split
  · split
    · exact ⟨_, _, rfl⟩
    · exact ⟨.string, none, rfl⟩
  · exact ⟨.string, none, rfl⟩

theorem key_initNode (tag : UInt32) (type : PbType) (value : Option PbVal) (fieldSz : ℕ) (forceNoKey : Bool) :
    (initNode tag type value true fieldSz forceNoKey).key =
      if type = .string ∧ (initNode tag type value true fieldSz forceNoKey).val.str ≠ [] ∧ forceNoKey = false then
        KnvKey.ofBytes (initNode tag type value true fieldSz forceNoKey).val.str
      else {} := by
  unfold initNode
  by_cases ht : type = .string
  · cases forceNoKey <;> simp [ht]
  · simp [ht]

theorem evalSz_initNode (tag : UInt32) (value : Option PbVal) (fieldSz : ℕ) (forceNoKey : Bool)
    (hsz : fieldSz = 0 ∨ fieldSz = pbEvalLength tag .string 0 (initNode tag .string value).val.str.length) :
    (initNode tag .string value true fieldSz forceNoKey).evalSz =
      pbEvalLength tag .string 0 (initNode tag .string value true fieldSz forceNoKey).val.str.length := by
  have hval : (initNode tag .string value true fieldSz forceNoKey).val = (initNode tag .string value).val := rfl
  rw [hval]
  rcases hsz with rfl | rfl
  · rfl
  · have hpos := pbEvalLength_pos tag .string 0 (initNode tag .string value).val.str.length
    simp only [initNode] at hpos ⊢
    simp only [hpos, if_true]

/-- A string that is a message is left to be expanded. -/
theorem expanded_initNode (tag : UInt32) (value : Option PbVal) (fieldSz : ℕ) (forceNoKey : Bool)
    (h : (initNode tag .string value true fieldSz forceNoKey).expanded = true)
    (hne : (initNode tag .string value true fieldSz forceNoKey).val.str ≠ []) :
    pbBegin (initNode tag .string value true fieldSz forceNoKey).val.str = none := by
  cases value with
  | none => exact absurd rfl hne
  | some v =>
    cases hb : pbBegin v.str with
    | none => exact hb
    | some r =>
      have hne' : v.str ≠ [] := hne
      simp [initNode, hb, hne'] at h

/-- A node that `InitNode` made of a canonical value. -/
theorem cached_initNode (tag : UInt32) (type : PbType) (value : Option PbVal) (fieldSz : ℕ) (forceNoKey : Bool)
    (hc : type = .string → ∀ v, value = some v → Canon MetasFirst v.str)
    (hsz : type = .string → fieldSz = 0 ∨ fieldSz = pbEvalLength tag .string 0 (initNode tag type value).val.str.length) :
    Cached (initNode tag type value true fieldSz forceNoKey) := by
  obtain ⟨n, hn⟩ : ∃ n, n = initNode tag type value true fieldSz forceNoKey := ⟨_, rfl⟩
  rw [← hn]
  have hfold : n.isFolded = true := hn ▸ isFolded_initNode ..
  have hcanon : type = .string → Canon MetasFirst n.val.str := by
    intro ht
    cases value with
    | none => exact hn ▸ canon_nil _
    | some v =>
      rw [hn, initNode, ht]
      exact hc ht v rfl
  have hlen : type = .string → n.evalValSz = n.val.str.length := by
    intro ht
    rw [hn]
    unfold initNode
    simp only [ht, if_true]
  have hkey : n.key = {} ∨ type = .string ∧ n.key = KnvKey.ofBytes n.val.str ∧ n.val.str ≠ [] := by
    by_cases hcond : type = .string ∧ n.val.str ≠ [] ∧ forceNoKey = false
    · refine .inr ⟨hcond.1, ?_, hcond.2.1⟩
      rw [hn, key_initNode, ← hn, if_pos hcond]
    · refine .inl ?_
      rw [hn, key_initNode, ← hn, if_neg hcond]
  have hbytes : n.hasKey = true → n.key ≠ {} := by
    intro hk he
    rw [hasKey, he] at hk
    simp at hk
  have htype : n.type = type := by rw [hn]; rfl
  refine ⟨⟨fun ht => ?_, ?_, fun ht => ?_, fun _ hexp hk => ?_, ?_, ?_, ?_⟩, fun hf => ?_, fun ht _ => hcanon (htype ▸ ht),
    fun ht _ => hlen (htype ▸ ht), fun hexp hk _ => ?_, ?_⟩
  · rw [htype] at ht
    subst ht
    rw [hlen rfl, Int.toNat_natCast, hn]
    exact_mod_cast evalSz_initNode tag value fieldSz forceNoKey (hsz rfl)
  · rcases hkey with hk | ⟨-, hk, -⟩
    · exact ⟨.string, none, hk⟩
    · rw [hk]
      exact ofBytes_eq_init _
  · rcases hkey with hk | ⟨htstr, hk, -⟩
    · rw [hk]
      exact canon_nil _
    · rw [hk] at ht ⊢
      exact canon_ofBytes (hcanon htstr) ht
  · -- a string with a key is a message, and has not been looked into
    rcases hkey with hk' | ⟨rfl, hk', hne⟩
    · exact absurd hk' (hbytes hk)
    · have hnone : pbBegin n.val.str = none := by
        rw [hn] at hexp hne ⊢
        exact expanded_initNode _ _ _ _ hexp hne
      refine absurd ?_ (hbytes hk)
      rw [hk', KnvKey.ofBytes, hnone]
  · exact hn ▸ ⟨fun hne => absurd rfl hne, fun hne => absurd rfl hne⟩
  · exact hn ▸ fun m hm => absurd hm List.not_mem_nil
  · exact hn ▸ fun c hc => absurd hc List.not_mem_nil
  · rw [hfold] at hf
    cases hf
  · exact (hkey.resolve_left (hbytes hk)).2.1
  · exact hn ▸ fun x hx => absurd hx List.not_mem_nil

theorem cached_at' {n : KnvNode} {a : ℕ} (h : Cached n) : Cached (n.at' a) :=
  ⟨⟨h.size, h.keyInit, h.keyCanon, h.keyed, ⟨h.index.inj, h.index.old⟩, h.metas, h.children⟩,
    fun hf hc => (h.clean hf hc).trans (plainVal_at' n a).symm, h.canon, h.len, h.key, h.dirty⟩

theorem All.cached_at' {n : KnvNode} {a : ℕ} (h : All Cached n) : All Cached (n.at' a) :=
  All.at' (fun _ _ => KnvNode.cached_at') h

/-! ### Expansion -/

theorem metaAt_ne_none_iff {n : KnvNode} {t : UInt32} :
    n.metaAt t ≠ none ↔ ∃ a, n.metas t = some a ∧ ∃ m ∈ n.metalist, m.self = a := by
  rw [metaAt, Option.ne_none_iff_isSome]
  split
  · next hnil =>
    rw [List.isEmpty_iff.mp hnil]
    simp
  · rw [Option.isSome_bind]
    cases n.metas t with
    | none => simp
    | some a =>
      simp only [Option.any_some, List.find?_isSome, decide_eq_true_eq]
      exact ⟨fun h => ⟨a, rfl, h⟩, fun ⟨_, ha, h⟩ => Option.some.inj ha ▸ h⟩

/-- What holds of `metas[]` while a scan adds nodes. -/
structure MetasFill (n : KnvNode) : Prop where
  leads : n.metalist ≠ [] → ∀ t a, n.metas t = some a → ∃ m ∈ n.metalist, m.self = a ∧ m.tag = t
  all : ∀ m ∈ n.metalist, n.metas m.tag ≠ none

theorem MetasFill.expandField {n : KnvNode} (h : MetasFill n) (k : Bool) (p : PbField × ℕ) :
    MetasFill (expandField k n p) := by
  unfold KnvNode.expandField
  split
  swap
  · exact ⟨h.leads, h.all⟩
  · refine ⟨fun _ t a hta => ?_, fun m hm => ?_⟩
    · simp only at hta
      split at hta
      · next ht =>
        cases hta
        exact ⟨_, List.mem_append_right _ (List.mem_singleton_self _), rfl, ht.symm⟩
      · split at hta
        · cases hta
        · next hne =>
          obtain ⟨m, hm, hma, hmt⟩ := h.leads (by simpa using hne) t a hta
          exact ⟨m, List.mem_append_left _ hm, hma, hmt⟩
    · simp only
      split
      · exact Option.some_ne_none _
      · next hne =>
        rcases List.mem_append.mp hm with hm | hm
        · have hnil : n.metalist.isEmpty = false := by
            cases hl : n.metalist with
            | nil => rw [hl] at hm; exact absurd hm List.not_mem_nil
            | cons _ _ => rfl
          rw [hnil]
          exact h.all m hm
        · exact absurd (by rw [List.mem_singleton.mp hm]; rfl) hne

theorem MetasFill.foldl {n : KnvNode} (h : MetasFill n) (k : Bool) (fs : List (PbField × ℕ)) :
    MetasFill (fs.foldl (KnvNode.expandField k) n) := by
  induction fs generalizing n with
  | nil => exact h
  | cons p fs ih => exact ih (h.expandField k p)

/-- After an expansion, `metas[]` leads to the metas by their tags. -/
theorem metasFill_innerExpand {n : KnvNode} (hexp : n.expanded = false) (pk k : Bool) :
    MetasFill (n.innerExpand pk k) := by
  have hnil : ∀ {m : KnvNode}, m.metalist = [] → MetasFill m := fun h =>
    ⟨fun hne => absurd h hne, fun m hm => by rw [h] at hm; exact absurd hm List.not_mem_nil⟩
  rw [innerExpand, if_neg (by simp [hexp])]
  simp only
  split
  · exact hnil rfl
  split
  · exact hnil rfl
  split
  · exact hnil rfl
  · have hfill := (hnil (m := { n with expanded := true, metalist := [], childlist := [], childHasKey := false }) rfl).foldl
      k (pbScan n.val.str).1
    split
    · exact ⟨hfill.leads, hfill.all⟩
    · exact hnil rfl

theorem cached_parsed {k : Bool} {fs : List PbField} {a : ℕ} (hok : ∀ f ∈ fs, f.Ok ∧ f.norm = f)
    (hcanon : ∀ f ∈ fs, Canon MetasFirst f.val.str) {c : KnvNode} (hc : c ∈ parsed k a (fs.map sized)) :
    All Cached c ∧ c.subnodeDirty = false ∧ ∃ f ∈ fs, c.tag = f.tag ∧ (f.tag ≤ ucMaxMetaNum → c.noKey = true) := by
  obtain ⟨p, hp, b, rfl⟩ := mem_parsed hc
  obtain ⟨f, hf, rfl⟩ := List.mem_map.mp hp
  refine ⟨.of_nil (cached_at' ?_) rfl rfl, rfl, f, hf, rfl, fun hle => ?_⟩
  · refine cached_initNode _ _ _ _ _ (fun _ v hv => ?_) fun ht => .inr ?_
    · cases hv
      exact hcanon f hf
    · have hval : (initNode f.tag f.type (some f.val)).val = f.val := pick_of_norm (hok f hf).2
      show f.encode.length = pbEvalLength f.tag .string 0 (initNode f.tag f.type (some f.val)).val.str.length
      rw [hval]
      obtain ⟨tag, type, val⟩ := f
      cases ht
      exact (pbEvalFieldLength_eq tag .string val).symm
  · have hforce : (decide ((sized f).1.tag ≤ ucMaxMetaNum) || k) = true := by
      rw [Bool.or_eq_true]
      exact .inl (decide_eq_true hle)
    rw [hforce]
    rfl

theorem isFolded_of_not_expanded {n : KnvNode} (h : n.expanded = false) : n.isFolded = true := by simp [isFolded, h]

theorem isFolded_of_nil {n : KnvNode} (hms : n.metalist = []) (hcs : n.childlist = []) : n.isFolded = true := by
  simp [isFolded, hms, hcs]

theorem expand_plainVal {n : KnvNode} (h : Cached n) (pk k : Bool) : (n.innerExpand pk k).plainVal = n.plainVal := by
  cases hexp : n.expanded with
  | true => rw [innerExpand_of_expanded hexp]
  | false =>
    exact plainVal_innerExpand hexp (fun ht => h.canon ht (isFolded_of_not_expanded hexp)) fun hk ht => h.key hexp hk ht

/-- **Expanding a node keeps its value honest**, and does not mark it. -/
theorem cached_innerExpand {n : KnvNode} (h : All Cached n) (hs : Shaped n) {pk : Bool}
    (hkey : n.tag = 1 → pk = true → n.noKey = true) (k : Bool) :
    All Cached (n.innerExpand pk k) ∧ ((n.innerExpand pk k).subnodeDirty = true → n.subnodeDirty = true) := by
  cases hexp : n.expanded with
  | true =>
    rw [innerExpand_of_expanded hexp]
    exact ⟨h, id⟩
  | false =>
    have hn := h.here
    have hfold := isFolded_of_not_expanded hexp
    have hsame := expandSame pk k n
    have hexp' := innerExpand_expanded pk k n
    have hshape := hs.innerExpand pk k
    have hfill := metasFill_innerExpand hexp pk k
    have hplain := expand_plainVal hn pk k
    have hun : Unfolded pk k n (n.innerExpand pk k) := unfolded hexp fun ht => hn.canon ht hfold
    have hhas : (n.innerExpand pk k).hasKey = n.hasKey := by rw [hasKey, hasKey, hsame.noKey, hsame.key]
    generalize n.innerExpand pk k = n' at *
    have hsize : n'.type = .string → n'.evalSz = pbEvalLength n'.tag .string 0 n'.evalValSz.toNat := by
      rw [hsame.type, hsame.evalSz, hsame.tag, hsame.evalValSz]
      exact hn.size
    have hinit : ∃ t v, n'.key = KnvKey.init t v := hsame.key ▸ hn.keyInit
    have hcanonKey : n'.key.type = .string → Canon MetasFirst n'.key.bytes := by
      rw [hsame.key]
      exact hn.keyCanon
    have hlen : n'.type = .string → n'.evalValSz = n'.val.str.length := by
      intro ht
      rw [hsame.evalValSz, hsame.val]
      exact hn.len (hsame.type ▸ ht) (.inl ⟨hfold, .inr hexp⟩)
    have hindex : MetaIndex n' := by
      refine ⟨fun hne t t' a ht ht' => ?_, fun hne t a ht => ?_⟩
      · obtain ⟨m, hm, hma, hmt⟩ := hfill.leads hne t a ht
        obtain ⟨m', hm', hma', hmt'⟩ := hfill.leads hne t' a ht'
        have heq : m = m' := List.inj_on_of_nodup_map (nodup_metas hshape.here) hm hm' (hma.trans hma'.symm)
        rw [← hmt, heq, hmt']
      · obtain ⟨m, hm, hma, -⟩ := hfill.leads hne t a ht
        refine hshape.here.old a ?_
        rw [addrs, List.map_append]
        exact List.mem_append_right _ (List.mem_map.mpr ⟨m, hm, hma⟩)
    cases hun with
    | leaf hleaf hms hcs hdirty =>
      have hfold' := isFolded_of_nil hms hcs
      refine ⟨.of_nil ⟨⟨hsize, hinit, hcanonKey, fun ht _ hk => ?_, hindex, by simp [hms], by simp [hcs]⟩, fun hf => ?_,
        fun ht _ => ?_, fun ht _ => hlen ht, fun he => ?_, by simp [hms, hcs]⟩ hms hcs, fun hd => hdirty ▸ hd⟩
      · -- a leaf has no key
        exfalso
        rw [hhas] at hk
        rw [hsame.type] at ht
        have hkb := hn.key hexp hk ht
        rw [hasKey, Bool.and_eq_true, Bool.not_eq_true', bne_iff_ne] at hk
        rcases hleaf with hleaf | ⟨htag, hpk⟩ | hleaf
        · exact hleaf ht
        · rw [hkey htag hpk] at hk
          cases hk.1
        · rw [hkb, KnvKey.ofBytes, hleaf] at hk
          exact hk.2 rfl
      · rw [hfold'] at hf
        cases hf
      · rw [hsame.val]
        exact hn.canon (hsame.type ▸ ht) hfold
      · rw [hexp'] at he
        cases he
    | message ms cs ht hval hne hok hstr hshort hms hcs hmetas hchildren hdirty =>
      have hokm : ∀ f ∈ ms, f.Ok ∧ f.norm = f := fun f hf => hok f (List.mem_append_left _ hf)
      have hokc : ∀ f ∈ cs, f.Ok ∧ f.norm = f := fun f hf => hok f (List.mem_append_right _ hf)
      have hmlist : ∀ m ∈ n'.metalist, All Cached m ∧ m.subnodeDirty = false ∧ MetaTag m.tag ∧ m.noKey = true := by
        intro m hm
        obtain ⟨hall, hd, f, hf, htag, hno⟩ :=
          cached_parsed hokm (fun f hf => hstr f (List.mem_append_left _ hf)) (hmetas ▸ hm)
        exact ⟨hall, hd, htag ▸ ⟨(hokm f hf).1.1.1, hms f hf⟩, hno (hms f hf)⟩
      have hclist : ∀ c ∈ n'.childlist, All Cached c ∧ c.subnodeDirty = false ∧ ChildTag c.tag := by
        intro c hc
        obtain ⟨hall, hd, f, hf, htag, -⟩ :=
          cached_parsed hokc (fun f hf => hstr f (List.mem_append_right _ hf)) (hchildren ▸ hc)
        exact ⟨hall, hd, htag ▸ ⟨UInt32.not_le.mp (hcs f hf), (hokc f hf).1.1.2⟩⟩
      have hlists : n'.metalist ≠ [] ∨ n'.childlist ≠ [] := by
        rw [hmetas, hchildren]
        cases ms with
        | nil =>
          cases cs with
          | nil => exact absurd rfl hne
          | cons _ _ => exact .inr (by simp [parsed])
        | cons _ _ => exact .inl (by simp [parsed])
      have hfold' : n'.isFolded = false := by
        rw [isFolded, hsame.type, ht, hexp']
        rcases hlists with h | h <;> simp [h]
      refine ⟨.mk ⟨⟨hsize, hinit, hcanonKey, fun _ _ hk => ?_, hindex, fun m hm => (hmlist m hm).2.2,
        fun c hc => (hclist c hc).2.2⟩, fun _ _ => ?_, fun _ hf => ?_, fun ht' _ => hlen ht', fun he => ?_,
        fun x hx hd => ?_⟩
        (fun m hm => (hmlist m hm).1) fun c hc => (hclist c hc).1, fun hd => ?_⟩
      · rw [hhas] at hk
        have hkb := hn.key hexp hk ht
        obtain ⟨f, fs, hcons⟩ := List.exists_cons_of_ne_nil hne
        have hf := hok f (hcons ▸ List.mem_cons_self ..)
        rw [hval, hcons, encodeAll_cons, ofBytes_encode hf.1 hf.2] at hkb
        have htag : f.tag = 1 := by
          by_contra hne'
          rw [if_neg hne'] at hkb
          rw [hasKey, hkb] at hk
          simp at hk
        -- the first meta is the key
        cases ms with
        | nil =>
          rw [List.nil_append] at hcons
          exact absurd (htag ▸ (by decide : (1 : UInt32) ≤ ucMaxMetaNum)) (hcs f (hcons ▸ List.mem_cons_self ..))
        | cons g ms =>
          cases hcons
          rw [metaAt_ne_none_iff]
          obtain ⟨m, l, hml, hm1⟩ : ∃ m l, n'.metalist = m :: l ∧ m.tag = 1 := ⟨_, _, hmetas, htag⟩
          have hmem : m ∈ n'.metalist := hml ▸ List.mem_cons_self ..
          obtain ⟨a, ha⟩ := Option.ne_none_iff_exists'.mp (hm1 ▸ hfill.all m hmem)
          obtain ⟨x, hx, hxa, -⟩ := hfill.leads (List.ne_nil_of_mem hmem) 1 a ha
          exact ⟨a, ha, x, hx, hxa⟩
      · rw [hsame.val, hplain, plainVal_of_folded hfold]
      · rw [hfold'] at hf
        cases hf
      · rw [hexp'] at he
        cases he
      · rcases List.mem_append.mp hx with hx | hx
        · rw [(hmlist x hx).2.1] at hd
          cases hd
        · rw [(hclist x hx).2.1] at hd
          cases hd
      · rw [hdirty] at hd
        cases hd

end KnvNode

end KnvProto
