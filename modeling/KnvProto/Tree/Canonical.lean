import KnvProto.Tree.Plain

/-!
# Canonical values

A string value is canonical when it is no message, or exactly what the encoder
writes for some fields, all strings among them being canonical themselves. What
else is asked of the fields of one message is a parameter; `MetasFirst` is what a
node keeps when it is expanded and written again: the metas stand before the
children, and a key is short enough for the 16 bits of its length.

`plainVal_innerExpand`: expanding a canonical value changes nothing that the
plain encoder sees.
-/

namespace KnvProto

/-- A canonical string, with fields that are `C` in every message. -/
inductive Canon (C : List PbField → Prop) : Bytes → Prop
  /-- Not a message. -/
  | leaf {bs : Bytes} : pbBegin bs = none → Canon C bs
  /-- The encoding of fields. -/
  | message {fs : List PbField} : C fs → (∀ f ∈ fs, f.Ok ∧ f.norm = f) → (∀ f ∈ fs, Canon C f.val.str) →
      Canon C (encodeAll fs)

/-- The fields of a message that a node keeps as they are. -/
structure MetasFirst (fs : List PbField) : Prop where
  /-- Metas, then children. -/
  order : ∃ ms cs, fs = ms ++ cs ∧ (∀ f ∈ ms, f.tag ≤ ucMaxMetaNum) ∧ ∀ f ∈ cs, ¬f.tag ≤ ucMaxMetaNum
  /-- The length of a key fits 16 bits. -/
  short : ∀ f ∈ fs, f.tag = 1 → f.val.str.length < 2 ^ 16

theorem canon_nil (C : List PbField → Prop) : Canon C [] := .leaf pbBegin_nil

/-! ### Fields as they are read back -/

/-- The first field of an encoding. -/
theorem pbBegin_encode {f : PbField} (h : f.Ok) (rest : Bytes) : pbBegin (f.encode ++ rest) = some (f.norm, rest) := by
  rw [pbBegin, pbDecodeTag_encode h]
  rfl

/-- The key that an encoding begins with. -/
theorem ofBytes_encode {f : PbField} (h : f.Ok) (hn : f.norm = f) (rest : Bytes) :
    KnvKey.ofBytes (f.encode ++ rest) = if f.tag = 1 then KnvKey.init f.type (some f.val) else {} := by
  rw [KnvKey.ofBytes, pbBegin_encode h, hn]

/-- A key is written as the field it was read from. -/
theorem encode_key {f : PbField} (htag : f.tag = 1) (hshort : f.val.str.length < 2 ^ 16) :
    PbField.encode ⟨1, (KnvKey.init f.type (some f.val)).type, (KnvKey.init f.type (some f.val)).getValue⟩ = f.encode := by
  obtain ⟨tag, type, val⟩ := f
  simp only at htag hshort
  subst htag
  rw [KnvKey.type_init, PbField.encode, PbField.encode]
  congr 1
  cases type
  case string =>
    have htake : val.str.take (val.str.length % 2 ^ 16) = val.str := by
      rw [Nat.mod_eq_of_lt hshort, List.take_length]
    rw [KnvKey.init, htake]
    rfl
  case fixed32 =>
    have hlt : val.i32.toNat < 2 ^ 32 := val.i32.toNat_lt
    have htake : (Varint.leBytes 4 val.i32.toNat).take 8 = Varint.leBytes 4 val.i32.toNat :=
      List.take_of_length_le (by simp)
    have hmod : val.i32.toNat % 256 ^ 4 = val.i32.toNat := Nat.mod_eq_of_lt hlt
    have hback : (PbVal.i32 { i64 := UInt64.ofNat val.i32.toNat }).toNat = val.i32.toNat := by
      rw [PbVal.i32, UInt64.toNat_toUInt32, UInt64.toNat_ofNat']
      omega
    simp only [KnvKey.init, KnvKey.getValue, htake, Varint.ofLeBytes_leBytes, hmod, payload, hback]
  all_goals
    have htake : (Varint.leBytes 8 val.i64.toNat).take 8 = Varint.leBytes 8 val.i64.toNat :=
      List.take_of_length_le (by simp)
    have hmod : val.i64.toNat % 256 ^ 8 = val.i64.toNat := Nat.mod_eq_of_lt val.i64.toNat_lt
    simp only [KnvKey.init, KnvKey.getValue, htake, Varint.ofLeBytes_leBytes, hmod, UInt64.ofNat_toNat, payload]

namespace KnvNode

/-! ### The nodes of a scan -/

theorem isFolded_initNode (tag : UInt32) (type : PbType) (value : Option PbVal) (updateEval : Bool) (fieldSz : ℕ)
    (forceNoKey : Bool) : (initNode tag type value updateEval fieldSz forceNoKey).isFolded = true := by
  simp [isFolded, initNode]

@[simp] theorem isFolded_at' (n : KnvNode) (a : ℕ) : (n.at' a).isFolded = n.isFolded := rfl

@[simp] theorem plainVal_at' (n : KnvNode) (a : ℕ) : (n.at' a).plainVal = n.plainVal := by
  obtain ⟨d, ms, cs⟩ := n
  rw [at', plainVal, plainVal]
  rfl

@[simp] theorem plain_at' (n : KnvNode) (a : ℕ) : (n.at' a).plain = n.plain := by
  rw [plain, plain, plainVal_at']
  rfl

theorem pick_of_norm {f : PbField} (hn : f.norm = f) : f.val.pick f.type = f.val := by
  obtain ⟨tag, type, val⟩ := f
  have hval : val.norm type = val := congrArg PbField.val hn
  cases type
  case string => exact hval
  case fixed32 =>
    have hstr : val.str = [] := by rw [← hval]; rfl
    show ({ i64 := val.i64 } : PbVal) = val
    rw [← hstr]
  all_goals exact hval

/-- The node for a field is written as the field. -/
theorem plain_ofField {f : PbField} (hn : f.norm = f) (sz : ℕ) (k : Bool) : (ofField (f, sz) k).plain = f.encode := by
  have hval : (ofField (f, sz) k).val = f.val := pick_of_norm hn
  have hfold : (ofField (f, sz) k).isFolded = true := isFolded_initNode ..
  rw [plain, plainVal_of_folded hfold, fieldOf, hval]
  obtain ⟨tag, type, val⟩ := f
  show (PbField.encode ⟨tag, type, if type = .string then { str := val.str } else val⟩) = _
  split
  · next ht =>
    subst ht
    rfl
  · rfl

/-- A field with the bytes it takes. -/
def sized (f : PbField) : PbField × ℕ := (f, f.encode.length)

theorem plainAll_parsed (k : Bool) : ∀ (fs : List PbField) (a : ℕ), (∀ f ∈ fs, f.norm = f) →
    plainAll false (parsed k a (fs.map sized)) = encodeAll fs := by
  intro fs
  induction fs with
  | nil => intro a _; simp [parsed]
  | cons f fs ih =>
    intro a hn
    rw [List.map_cons, parsed, plainAll_false_cons, ih _ fun g hg => hn g (List.mem_cons_of_mem _ hg), plain_at', sized,
      plain_ofField (hn f (List.mem_cons_self ..)), encodeAll_cons]

theorem parsed_append (k : Bool) : ∀ (fs gs : List (PbField × ℕ)) (a : ℕ),
    parsed k a (fs ++ gs) = parsed k a fs ++ parsed k (a + fs.length) gs := by
  intro fs
  induction fs with
  | nil => intro gs a; simp [parsed]
  | cons p fs ih =>
    intro gs a
    simp only [List.cons_append, parsed, ih, List.length_cons]
    rw [Nat.add_assoc, Nat.add_comm 1]

theorem filter_parsed_metas {k : Bool} {fs : List PbField} (h : ∀ f ∈ fs, f.tag ≤ ucMaxMetaNum) (a : ℕ) :
    (parsed k a (fs.map sized)).filter (·.isMetaTag) = parsed k a (fs.map sized) ∧
      (parsed k a (fs.map sized)).filter (!·.isMetaTag) = [] := by
  have hall : ∀ c ∈ parsed k a (fs.map sized), c.isMetaTag = true := by
    intro c hc
    obtain ⟨p, hp, b, rfl⟩ := mem_parsed hc
    obtain ⟨f, hf, rfl⟩ := List.mem_map.mp hp
    exact decide_eq_true (h f hf)
  exact ⟨List.filter_eq_self.mpr hall, List.filter_eq_nil_iff.mpr fun c hc => by simp [hall c hc]⟩

theorem filter_parsed_children {k : Bool} {fs : List PbField} (h : ∀ f ∈ fs, ¬f.tag ≤ ucMaxMetaNum) (a : ℕ) :
    (parsed k a (fs.map sized)).filter (·.isMetaTag) = [] ∧
      (parsed k a (fs.map sized)).filter (!·.isMetaTag) = parsed k a (fs.map sized) := by
  have hall : ∀ c ∈ parsed k a (fs.map sized), c.isMetaTag = false := by
    intro c hc
    obtain ⟨p, hp, b, rfl⟩ := mem_parsed hc
    obtain ⟨f, hf, rfl⟩ := List.mem_map.mp hp
    exact decide_eq_false (h f hf)
  exact ⟨List.filter_eq_nil_iff.mpr fun c hc => by simp [hall c hc], List.filter_eq_self.mpr fun c hc => by simp [hall c hc]⟩

/-- What a scan makes of the fields of a canonical message. -/
theorem scan_of_metasFirst {k : Bool} {fs ms cs : List PbField} (hfs : fs = ms ++ cs) (hok : ∀ f ∈ fs, f.Ok ∧ f.norm = f)
    (hms : ∀ f ∈ ms, f.tag ≤ ucMaxMetaNum) (hcs : ∀ f ∈ cs, ¬f.tag ≤ ucMaxMetaNum) (a : ℕ) :
    pbScan (encodeAll fs) = (fs.map sized, true) ∧
      (parsed k a (fs.map sized)).filter (·.isMetaTag) = parsed k a (ms.map sized) ∧
      (parsed k a (fs.map sized)).filter (!·.isMetaTag) = parsed k (a + ms.length) (cs.map sized) := by
  refine ⟨?_, ?_⟩
  · rw [pbScan_encodeAll fun f hf => (hok f hf).1]
    congr 1
    exact List.map_congr_left fun f hf => by rw [(hok f hf).2, sized]
  · obtain ⟨hm, hm'⟩ := filter_parsed_metas (k := k) hms a
    obtain ⟨hc, hc'⟩ := filter_parsed_children (k := k) hcs (a + ms.length)
    rw [hfs, List.map_append, parsed_append, List.length_map, List.filter_append, List.filter_append, hm, hm', hc, hc',
      List.append_nil, List.nil_append]
    exact ⟨rfl, rfl⟩

/-! ### Expansion of a canonical value -/

/-- What an expansion makes of a canonical value: a leaf, or the nodes of its fields. -/
inductive Unfolded (pk k : Bool) (n n' : KnvNode) : Prop
  /-- A number, a key, or a string that is not a message. -/
  | leaf : n.type ≠ .string ∨ n.tag = 1 ∧ pk = true ∨ pbBegin n.val.str = none → n'.metalist = [] →
      n'.childlist = [] → n'.subnodeDirty = n.subnodeDirty → Unfolded pk k n n'
  /-- The metas and children of the message. -/
  | message (ms cs : List PbField) : n.type = .string → n.val.str = encodeAll (ms ++ cs) → ms ++ cs ≠ [] →
      (∀ f ∈ ms ++ cs, f.Ok ∧ f.norm = f) → (∀ f ∈ ms ++ cs, Canon MetasFirst f.val.str) →
      (∀ f ∈ ms ++ cs, f.tag = 1 → f.val.str.length < 2 ^ 16) →
      (∀ f ∈ ms, f.tag ≤ ucMaxMetaNum) → (∀ f ∈ cs, ¬f.tag ≤ ucMaxMetaNum) →
      n'.metalist = parsed k n.slots (ms.map sized) → n'.childlist = parsed k (n.slots + ms.length) (cs.map sized) →
      n'.subnodeDirty = false → Unfolded pk k n n'

theorem unfolded {k pk : Bool} {n : KnvNode} (hexp : n.expanded = false)
    (hc : n.type = .string → Canon MetasFirst n.val.str) : Unfolded pk k n (n.innerExpand pk k) := by
  have hn' : Expanded pk k n (n.innerExpand pk k) := innerExpand_cases hexp
  generalize n.innerExpand pk k = n' at hn'
  cases hn' with
  | leaf hleaf => exact .leaf hleaf rfl rfl rfl
  | cut _ _ _ ht _ hb heom =>
    -- a canonical message ends correctly
    have hcanon := hc ht
    generalize n.val.str = s at hcanon hb heom
    cases hcanon with
    | leaf h => rw [h] at hb; cases hb
    | message _ hok _ => rw [pbScan_encodeAll fun f hf => (hok f hf).1] at heom; cases heom
  | message _ _ _ ht _ hb _ =>
    have hcanon := hc ht
    generalize hs : n.val.str = s at hcanon hb
    cases hcanon with
    | leaf h => rw [h] at hb; cases hb
    | @message fs hfirst hok hstr =>
      obtain ⟨ms, cs, rfl, hms, hcs⟩ := hfirst.order
      obtain ⟨hscan, hmetas, hchildren⟩ := scan_of_metasFirst (k := k) rfl hok hms hcs n.slots
      have hne : ms ++ cs ≠ [] := by
        intro hnil
        rw [hnil] at hb
        cases hb
      refine .message ms cs ht hs hne hok hstr hfirst.short hms hcs ?_ ?_ rfl
      · simp only [hscan, hmetas]
      · simp only [hscan, hchildren]

/-- **Expanding a canonical value changes nothing that the plain encoder sees.** -/
theorem plainVal_innerExpand {k pk : Bool} {n : KnvNode} (hexp : n.expanded = false)
    (hc : n.type = .string → Canon MetasFirst n.val.str) (hkey : n.hasKey = true → n.type = .string →
      n.key = KnvKey.ofBytes n.val.str) : (n.innerExpand pk k).plainVal = n.plainVal := by
  have hsame := expandSame pk k n
  have hplain : n.plainVal = n.val.str := plainVal_of_folded (by simp [isFolded, hexp])
  have hexp' := innerExpand_expanded pk k n
  have hun : Unfolded pk k n (n.innerExpand pk k) := unfolded hexp hc
  cases hun with
  | leaf _ hms hcs _ => rw [plainVal_of_folded (by simp [isFolded, hms, hcs]), hsame.val, hplain]
  | message ms cs ht hs hne hok _ hshort hms hcs hmetas hchildren _ =>
    have hf : (n.innerExpand pk k).isFolded = false := by
      rw [isFolded, hsame.type, hexp', hmetas, hchildren, ht]
      cases ms with
      | nil =>
        cases cs with
        | nil => exact absurd rfl hne
        | cons _ _ => rfl
      | cons _ _ => simp [parsed]
    have hkey' : (n.innerExpand pk k).hasKey = n.hasKey ∧ (n.innerExpand pk k).keyBytes = n.keyBytes := by
      have : (n.innerExpand pk k).hasKey = n.hasKey := by rw [hasKey, hasKey, hsame.noKey, hsame.key]
      exact ⟨this, by rw [keyBytes, keyBytes, this, keyField, keyField, hsame.key]⟩
    rw [plainVal_of_not_folded hf, hmetas, hchildren, hkey'.1, hkey'.2, hplain, hs,
      plainAll_parsed _ cs _ fun f hf => (hok f (List.mem_append_right _ hf)).2, encodeAll_append]
    congr 1
    have hall : ∀ f ∈ ms, f.norm = f := fun f hf => (hok f (List.mem_append_left _ hf)).2
    cases hk : n.hasKey with
    | false => rw [keyBytes, hk, if_neg Bool.false_ne_true, List.nil_append, plainAll_parsed _ ms _ hall]
    | true =>
      -- the key is the first field, and is written in its place
      have hbytes : n.key.bytes ≠ [] := by
        rw [hasKey, Bool.and_eq_true] at hk
        exact bne_iff_ne.mp hk.2
      have hofBytes := hkey hk ht
      rw [hs] at hofBytes
      obtain ⟨f, fs, hcons⟩ := List.exists_cons_of_ne_nil hne
      have hf := hok f (hcons ▸ List.mem_cons_self ..)
      rw [hcons, encodeAll_cons, ofBytes_encode hf.1 hf.2] at hofBytes
      have htag : f.tag = 1 := by
        by_contra hne'
        rw [if_neg hne'] at hofBytes
        exact hbytes (by rw [hofBytes])
      rw [if_pos htag] at hofBytes
      cases ms with
      | nil =>
        rw [List.nil_append] at hcons
        exact absurd (htag ▸ (by decide : (1 : UInt32) ≤ ucMaxMetaNum)) (hcs f (hcons ▸ List.mem_cons_self ..))
      | cons g ms =>
        cases hcons
        have hg1 : ((ofField (sized f) (decide ((sized f).1.tag ≤ ucMaxMetaNum) || k)).at' n.slots).tag = 1 := htag
        rw [keyBytes, hk, if_pos rfl, keyField, hofBytes,
          encode_key htag (hshort f (List.mem_append_left _ (List.mem_cons_self ..)) htag), List.map_cons, parsed,
          plainAll_cons, if_pos (by simp [hg1]),
          plainAll_parsed _ ms _ fun g hg => hall g (List.mem_cons_of_mem _ hg), encodeAll_cons]

/-- `New` from the encoding of a field. -/
theorem newFromBytes_encode {f : PbField} (h : f.Ok) (hn : f.norm = f) :
    newFromBytes f.encode = .ok (initNode f.tag f.type (some f.val) true f.encode.length) := by
  have hb := pbBegin_encode h []
  rw [List.append_nil, hn] at hb
  unfold newFromBytes
  rw [hb]
  rfl

end KnvNode

end KnvProto
