import KnvProto.Tree.Merged
import KnvProto.Tree.Rewritten
import Mathlib.Data.List.Flatten

/-!
# Updates one after the other

A stored message is updated again and again, and between two updates it is only bytes. What
an update makes can be updated again (`Genuine.of_merge`), is no longer than both messages
together (`length_mergeField`), and is not changed by the same update (`mergeField_again`):
an update may be sent twice.

## The model

`Merges` is what can come of a merge, case by case. The key and the tag of what is merged
into stay (`SameField`), so that the next update finds the same children.
-/

namespace KnvProto

open Merge Varint

variable {u d r w s c f : PbField} {levels : ℕ} {us ds ms cs : List PbField}

/-! ### Keys -/

/-- The key of a message is its first meta. -/
theorem Layout.key (h : Layout ms cs) : KnvKey.ofBytes (encodeAll (ms ++ cs)) = KnvNode.leadingKey ms := by
  cases ms with
  | nil =>
    cases cs with
    | nil => rfl
    | cons c cs =>
      have hg := h.genuine c (List.mem_cons_self ..)
      rw [List.nil_append, encodeAll_cons, ofBytes_encode hg.ok hg.norm]
      exact if_neg fun (h1 : c.tag = 1) => h.children c (List.mem_cons_self ..) (h1 ▸ by decide)
  | cons m ms =>
    have hg := h.genuine m (List.mem_cons_self ..)
    rw [List.cons_append, encodeAll_cons, ofBytes_encode hg.ok hg.norm]
    rfl

theorem Genuine.fieldKey (h : Genuine f) (hne : (contentOf f).2 ≠ []) :
    fieldKey f = KnvNode.leadingKey (contentOf f).1 := by
  rcases h.content with hnil | ⟨ht, hstr, hl⟩
  · rw [hnil] at hne
    exact absurd rfl hne
  · rw [KnvProto.fieldKey, if_pos ht, hstr, hl.key]

theorem keeps_meta : Keeps (fun f : PbField => f.tag) fun s _ => some s := by
  intro s d r _ hr
  cases hr
  rfl

/-- An update has no key to give. -/
theorem mem_of_mergeMetas (h : mergeMetas us ds = some ms) : ∀ f ∈ ms, f.tag = 1 → f ∈ ds := by
  refine forall_putAll (fun f hf _ => hf) (fun s hs h1 => ?_) (fun s d r hs _ hr => ?_) h
  · have hlt := of_decide_eq_true (List.mem_filter.mp hs).2
    rw [h1] at hlt
    exact absurd hlt (by decide)
  · cases hr
    exact hs

/-- The key of a message stays. -/
theorem leadingKey_mergeMetas (h : mergeMetas us ds = some ms) : KnvNode.leadingKey ms = KnvNode.leadingKey ds := by
  have hprefix := prefix_putAll keeps_meta h
  cases ds with
  | nil =>
    cases ms with
    | nil => rfl
    | cons m ms =>
      rw [KnvNode.leadingKey, if_neg fun h1 => List.not_mem_nil (mem_of_mergeMetas h m (List.mem_cons_self ..) h1)]
      rfl
  | cons d ds =>
    obtain ⟨l, hl⟩ := hprefix
    cases ms with
    | nil => cases hl
    | cons m ms =>
      have htag : m.tag = d.tag := (List.cons.inj hl).1.symm
      rw [KnvNode.leadingKey, KnvNode.leadingKey, htag]
      split
      · next h1 =>
        have hget : (m :: ms)[0]? = some d := getElem?_putAll h rfl fun s hs hd => by
          have hlt := of_decide_eq_true (List.mem_filter.mp hs).2
          rw [← show d.tag = s.tag from hd, h1] at hlt
          exact absurd hlt (by decide)
        cases hget
        rfl
      · rfl

/-! ### What can come of a merge -/

/-- The children of a merge. -/
def mergeChildren (levels : ℕ) (us ds : List PbField) : Option (List PbField) :=
  if levels = 0 then some (replaceChildren us ds)
  else (mergeItems (mergeField levels) (identified us) (identified ds)).map (·.map Prod.snd)

/-- The message of metas and children. -/
def withContent (d : PbField) (ms cs : List PbField) : PbField := { d with val := { str := encodeAll (ms ++ cs) } }

/-- What comes of a merge, case by case. -/
inductive Merges (levels : ℕ) (u d r : PbField) : Prop
  /-- Another field is left alone. -/
  | other : ¬SameField u d → r = d → Merges levels u d r
  /-- A value is replaced. -/
  | value : SameField u d → (contentOf u).2 = [] ∨ (contentOf d).2 = [] → overwriteField u d = some r →
      Merges levels u d r
  /-- Content is merged into content. -/
  | content (ms cs : List PbField) : SameField u d → (contentOf u).2 ≠ [] → (contentOf d).2 ≠ [] →
      mergeMetas (contentOf u).1 (contentOf d).1 = some ms →
      mergeChildren levels (contentOf u).2 (contentOf d).2 = some cs →
      r = withContent d ms cs → Merges levels u d r

theorem mergeField_eq_some : mergeField (levels + 1) u d = some r ↔ Merges levels u d r := by
  rw [mergeField]
  by_cases hsame : SameField u d
  swap
  · rw [if_pos hsame]
    refine ⟨fun h => .other hsame (Option.some.inj h).symm, fun h => ?_⟩
    cases h with
    | other _ hr => rw [hr]
    | value hs _ _ => exact absurd hs hsame
    | content ms cs hs _ _ _ _ _ => exact absurd hs hsame
  rw [if_neg (not_not_intro hsame)]
  by_cases hleaf : (contentOf u).2 = [] ∨ (contentOf d).2 = []
  · rw [if_pos hleaf]
    refine ⟨.value hsame hleaf, fun h => ?_⟩
    cases h with
    | other hs _ => exact absurd hsame hs
    | value _ _ hr => exact hr
    | content ms cs _ hu hd _ _ _ => exact absurd hleaf (not_or.mpr ⟨hu, hd⟩)
  rw [if_neg hleaf]
  obtain ⟨hu, hd⟩ := not_or.mp hleaf
  refine ⟨fun h => ?_, fun h => ?_⟩
  · obtain ⟨ms, hms, h⟩ := Option.bind_eq_some_iff.mp h
    obtain ⟨cs, hcs, hr⟩ := Option.map_eq_some_iff.mp h
    exact .content ms cs hsame hu hd hms hcs hr.symm
  · cases h with
    | other hs _ => exact absurd hsame hs
    | value _ hleaf' _ => exact absurd hleaf' hleaf
    | content ms cs _ _ _ hms hcs hr =>
      refine Option.bind_eq_some_iff.mpr ⟨ms, hms, ?_⟩
      rw [← mergeChildren, hcs, hr]
      rfl

theorem mergeField_other (h : ¬SameField u d) : mergeField levels u d = some d := by
  cases levels with
  | zero => exact if_neg h
  | succ levels => exact if_pos h

/-- The children of what is mergeable are. -/
theorem mergeable_below (h : levels ≠ 0 → ∀ s ∈ us, ∀ c ∈ ds, SameField s c →
    KeepsKey levels s c ∧ Mergeable levels s c) (hs : s ∈ us) (hc : c ∈ ds) (hsame : SameField s c) :
    Mergeable levels s c := by
  cases levels with
  | zero => trivial
  | succ levels => exact (h (Nat.succ_ne_zero _) s hs c hc hsame).2

/-! ### A value that is replaced -/

/-- A field with another value: that of the update, which has the same tag and key. -/
structure Overwritten (u r : PbField) : Prop where
  genuine : Genuine r
  same : SameField u r
  content : contentOf r = contentOf u
  again : overwriteField u r = some r
  /-- A string is the same as that of the update. -/
  eq : u.type = .string → r = u

theorem overwriteField_self (h : Genuine u) : overwriteField u u = some u :=
  (if_pos Iff.rfl).trans (congrArg some h.norm)

theorem str_norm {type : PbType} (ht : type ≠ .string) (val : PbVal) : (val.norm type).str = [] := by
  cases type with
  | string => exact absurd rfl ht
  | varint => rfl
  | fixed64 => rfl
  | fixed32 => rfl

theorem overwritten (hu : Genuine u) (hd : Genuine d) (hsame : SameField u d) (h : overwriteField u d = some r) :
    Overwritten u r := by
  unfold overwriteField at h
  split at h
  swap
  · cases h
  next hiff =>
  obtain rfl := Option.some.inj h
  by_cases ht : u.type = .string
  · have hr : PbField.norm { d with val := u.val } = u := by
      rw [show ({ d with val := u.val } : PbField) = u from ?_, hu.norm]
      obtain ⟨tag, type, val⟩ := d
      have htype : type = .string := hiff.mp ht
      have htag : tag = u.tag := hsame.1
      rw [htype, htag, ← ht]
    rw [hr]
    exact ⟨hu, ⟨rfl, rfl⟩, rfl, overwriteField_self hu, fun _ => rfl⟩
  · have htd : d.type ≠ .string := fun h => ht (hiff.mpr h)
    have hstr : (PbField.norm { d with val := u.val }).val.str = [] := str_norm htd u.val
    refine ⟨⟨⟨hd.ok.1, ?_⟩, norm_norm _, hstr ▸ canon_nil _⟩, ⟨hsame.1, ?_⟩, ?_, if_pos hiff, fun h => absurd h ht⟩
    · rw [hstr]
      decide
    · rw [fieldKey, fieldKey, if_neg ht]
      exact if_neg htd
    · rw [contentOf, contentOf, if_neg ht]
      exact if_neg htd

/-! ### What is made can be updated again -/

theorem keeps_item (join : PbField → PbField → Option PbField) : Keeps (·.1) (joinItem join) := by
  intro s d r hsd hr
  obtain ⟨r', -, rfl⟩ := Option.map_eq_some_iff.mp hr
  exact hsd

/-- A child of a merge was there, is that of the update, or is a merge of both. -/
theorem mem_mergeChildren (hus : levels ≠ 0 → (us.map ident).Nodup) (h : mergeChildren levels us ds = some cs)
    (hc : c ∈ cs) : c ∈ ds ∨ c ∈ us ∨
      levels ≠ 0 ∧ ∃ s ∈ us, ∃ d ∈ ds, ident d = ident s ∧ mergeField levels s d = some c := by
  unfold mergeChildren at h
  split at h
  · cases h
    rcases List.mem_append.mp hc with hc | hc
    · exact .inl (List.mem_filter.mp hc).1
    · exact .inr (.inl hc)
  · next h0 =>
    obtain ⟨is, his, rfl⟩ := Option.map_eq_some_iff.mp h
    obtain ⟨i, hi, rfl⟩ := List.mem_map.mp hc
    rcases mem_putAll (keeps_item _) (by rw [fst_identified]; exact hus h0) his hi with hi | hi | ⟨s, hs, d, hd, hsd, hj⟩
    · obtain ⟨x, hx, rfl⟩ := List.mem_map.mp hi
      exact .inl hx
    · obtain ⟨x, hx, rfl⟩ := List.mem_map.mp hi
      exact .inr (.inl hx)
    · obtain ⟨x, hx, rfl⟩ := List.mem_map.mp hs
      obtain ⟨y, hy, rfl⟩ := List.mem_map.mp hd
      obtain ⟨r, hr, rfl⟩ := Option.map_eq_some_iff.mp hj
      exact .inr (.inr ⟨h0, x, hx, y, hy, hsd, hr⟩)

theorem length_encode_le_of_mem (h : f ∈ ds) : f.encode.length ≤ (encodeAll ds).length := by
  obtain ⟨as, bs, rfl⟩ := List.append_of_mem h
  rw [encodeAll_append, encodeAll_cons, List.length_append, List.length_append]
  omega

theorem length_withContent (ht : d.type = .string) (ms cs : List PbField) :
    (encodeAll (ms ++ cs)).length < (withContent d ms cs).encode.length := by
  have h := (KnvNode.length_encode_str d.tag (encodeAll (ms ++ cs))).1
  rwa [← ht] at h

theorem Layout.contentOf_withContent (h : Layout ms cs) (ht : d.type = .string) :
    contentOf (withContent d ms cs) = (ms, cs) := by
  rw [contentOf, withContent, if_pos ht, h.content]

theorem Layout.fieldKey_withContent (h : Layout ms cs) (ht : d.type = .string) :
    KnvProto.fieldKey (withContent d ms cs) = KnvNode.leadingKey ms := by
  rw [KnvProto.fieldKey, withContent, if_pos ht, h.key]

theorem Layout.genuine_withContent (h : Layout ms cs) (ht : d.type = .string) (hok : TagOk d.tag)
    (hlen : (encodeAll (ms ++ cs)).length < 2 ^ 64) : Genuine (withContent d ms cs) := by
  refine ⟨⟨hok, hlen⟩, ?_, h.canon⟩
  rw [PbField.norm, withContent, ht]
  rfl

/-- A canonical message is a layout, and the length of its keys fits 16 bits. -/
theorem Genuine.layout (h : Genuine f) (hne : (contentOf f).2 ≠ []) :
    f.type = .string ∧ f.val = { str := encodeAll ((contentOf f).1 ++ (contentOf f).2) } ∧
      Layout (contentOf f).1 (contentOf f).2 := by
  rcases h.content with hnil | ⟨ht, hstr, hl⟩
  · rw [hnil] at hne
    exact absurd rfl hne
  · have hval := KnvNode.val_of_string h.norm ht
    rw [hstr] at hval
    exact ⟨ht, hval, hl⟩

/-! ### Lengths -/

theorem length_encodeAll (ds : List PbField) : (encodeAll ds).length = (ds.map (·.encode.length)).sum := by
  rw [encodeAll, List.length_flatMap]

/-- A value of another type is no longer than both values. -/
theorem length_overwrite (hu : Genuine u) (hd : Genuine d) (hsame : SameField u d) (h : overwriteField u d = some r) :
    r.encode.length ≤ u.encode.length + d.encode.length := by
  by_cases ht : u.type = .string
  · obtain rfl := (overwritten hu hd hsame h).eq ht
    omega
  unfold overwriteField at h
  split at h
  swap
  · cases h
  next hiff =>
  obtain rfl := Option.some.inj h
  have htd : d.type ≠ .string := fun h => ht (hiff.mpr h)
  have hnorm : u.val.norm u.type = u.val := congrArg PbField.val hu.norm
  have htag := length_encode_pos (pbTagWord u.type u.tag).toNat
  have hpos : 0 < (payload d.type d.val).length := by
    cases hty : d.type with
    | string => exact absurd hty htd
    | varint => 
      rw [payload, pbVint_eq]
      exact length_encode_pos _
    | fixed64 => simp [payload]
    | fixed32 => simp [payload]
  have hpay : (payload d.type u.val).length ≤ 1 + (payload u.type u.val).length + (payload d.type d.val).length := by
    cases hty : d.type with
    | string => exact absurd hty htd
    | fixed64 => simp only [payload, length_leBytes]; omega
    | fixed32 => simp only [payload, length_leBytes]; omega
    | varint =>
      cases htu : u.type with
      | string => exact absurd htu ht
      | varint => simp only [payload]; omega
      | fixed64 => 
        have := length_pbVint_le u.val.i64
        rw [hty] at hpos
        simp only [payload, length_leBytes] at hpos ⊢
        omega
      | fixed32 => 
        rw [htu] at hnorm
        have h32 : u.val.i64.toNat < 128 ^ 5 := by
          rw [← hnorm]
          have := u.val.i32.toNat_lt
          simp [PbVal.norm]
          omega
        have := length_encode_le (by decide) h32
        simp only [payload, length_leBytes, pbVint_eq] at hpos ⊢
        omega
  rw [encode_norm]
  show (pbVint (pbTagWord d.type d.tag) ++ payload d.type u.val).length ≤
    (pbVint (pbTagWord u.type u.tag) ++ payload u.type u.val).length +
      (pbVint (pbTagWord d.type d.tag) ++ payload d.type d.val).length
  rw [List.length_append, List.length_append, List.length_append, pbVint_eq (pbTagWord u.type u.tag)]
  omega

theorem length_str_lt (ht : f.type = .string) : f.val.str.length < f.encode.length := by
  rw [PbField.encode, ht]
  exact (KnvNode.length_encode_str f.tag f.val.str).1

theorem Genuine.length_content (h : Genuine f) (hne : (contentOf f).2 ≠ []) :
    (encodeAll ((contentOf f).1 ++ (contentOf f).2)).length < f.encode.length := by
  obtain ⟨ht, hval, -⟩ := h.layout hne
  have hlt := length_str_lt ht
  rw [hval] at hlt
  exact hlt

theorem Genuine.length_child (h : Genuine f) (hs : s ∈ (contentOf f).2) : s.encode.length < f.encode.length :=
  Nat.lt_of_le_of_lt (length_encode_le_of_mem (List.mem_append_right _ hs)) (h.length_content (List.ne_nil_of_mem hs))

/-- The length of a string with its header. -/
theorem length_encode_string (ht : f.type = .string) (h64 : f.val.str.length < 2 ^ 64) : f.encode.length =
    (pbVint (pbTagWord .string f.tag)).length + ((encode f.val.str.length).length + f.val.str.length) := by
  rw [PbField.encode, ht]
  simp only [payload, List.length_append]
  rw [pbVint_eq (UInt64.ofNat _), UInt64.toNat_ofNat', Nat.mod_eq_of_lt h64]

/-- Content no longer than both contents makes a message no longer than both messages. -/
theorem length_string_le (hu : u.type = .string) (hd : d.type = .string) (hr : r.type = .string)
    (hut : r.tag = u.tag) (hl : r.val.str.length ≤ u.val.str.length + d.val.str.length)
    (hlen : u.encode.length + d.encode.length < 2 ^ 64) : r.encode.length ≤ u.encode.length + d.encode.length := by
  have hul := length_str_lt hu
  have hdl := length_str_lt hd
  have hadd := length_encode_add u.val.str.length d.val.str.length
  have hmono := length_encode_mono hl
  have hue := length_encode_string hu (by omega)
  have hde := length_encode_string hd (by omega)
  rw [length_encode_string hr (by omega), hut]
  omega

theorem length_filter_le (p : PbField → Bool) (ds : List PbField) :
    (encodeAll (ds.filter p)).length ≤ (encodeAll ds).length :=
  (List.filter_sublist.flatMap PbField.encode).length_le

theorem length_mergeMetas (h : mergeMetas us ds = some ms) :
    (encodeAll ms).length ≤ (encodeAll us).length + (encodeAll ds).length := by
  have hfilter := length_filter_le (fun f => 1 < f.tag) us
  have hsum : (ms.map (·.encode.length)).sum ≤
      ((us.filter fun f => 1 < f.tag).map (·.encode.length)).sum + (ds.map (·.encode.length)).sum :=
    sum_putAll (fun s d r hr => by
      cases hr
      exact Nat.le_add_right ..) h
  rw [length_encodeAll, length_encodeAll] at hfilter
  rw [length_encodeAll, length_encodeAll, length_encodeAll]
  omega

theorem sum_identified (ds : List PbField) :
    ((identified ds).map fun i => i.2.encode.length).sum = (encodeAll ds).length := by
  rw [identified, List.map_map, length_encodeAll]
  rfl

theorem length_mergeChildren (hus : levels ≠ 0 → (us.map ident).Nodup)
    (hjoin : ∀ s ∈ us, ∀ c ∈ ds, ∀ r, mergeField levels s c = some r → r.encode.length ≤ s.encode.length + c.encode.length)
    (h : mergeChildren levels us ds = some cs) : (encodeAll cs).length ≤ (encodeAll us).length + (encodeAll ds).length := by
  unfold mergeChildren at h
  split at h
  · cases h
    have hfilter := length_filter_le (fun f => f.tag ∉ us.map (·.tag)) ds
    rw [replaceChildren, encodeAll_append, List.length_append]
    omega
  · next h0 =>
    obtain ⟨is, his, rfl⟩ := Option.map_eq_some_iff.mp h
    have hsum : (is.map fun i => i.2.encode.length).sum ≤
        ((identified us).map fun i => i.2.encode.length).sum + ((identified ds).map fun i => i.2.encode.length).sum :=
      sum_putAll_of_nodup (keeps_item _) (by rw [fst_identified]; exact hus h0) (fun i hi j hj r _ hr => by
        obtain ⟨s, hs, rfl⟩ := List.mem_map.mp hi
        obtain ⟨c, hc, rfl⟩ := List.mem_map.mp hj
        obtain ⟨r', hr', rfl⟩ := Option.map_eq_some_iff.mp hr
        exact hjoin s hs c hc r' hr') his
    rw [sum_identified, sum_identified] at hsum
    rw [length_encodeAll, List.map_map]
    exact hsum

/-- **A merge is no longer than both messages.** -/
theorem length_mergeField : ∀ (levels : ℕ) {u d r : PbField}, Genuine u → Genuine d → Mergeable levels u d →
    u.encode.length + d.encode.length < 2 ^ 64 → mergeField levels u d = some r →
    r.encode.length ≤ u.encode.length + d.encode.length := by
  intro levels
  induction levels with
  | zero =>
    intro u d r hu hd _ _ h
    rw [mergeField] at h
    split at h
    · next hsame => exact length_overwrite hu hd hsame h
    · cases h
      omega
  | succ levels ih =>
    intro u d r hu hd hmerge hlen h
    cases mergeField_eq_some.mp h with
    | other _ hr =>
      rw [hr]
      omega
    | value hsame _ h => exact length_overwrite hu hd hsame h
    | content ms cs hsame hune hdne hms hcs hr =>
      subst hr
      obtain ⟨hut, huval, -⟩ := hu.layout hune
      obtain ⟨hdt, hdval, -⟩ := hd.layout hdne
      obtain ⟨-, hinner⟩ := hmerge hune hdne
      refine length_string_le hut hdt hdt hsame.1 ?_ hlen
      have hmetas := length_mergeMetas hms
      have hchildren := length_mergeChildren (fun h0 => (hinner h0).1) (fun s hs c hc r hr => ?_) hcs
      · rw [huval, hdval, withContent]
        simp only [encodeAll_append, List.length_append]
        omega
      have hslt := hu.length_child hs
      have hclt := hd.length_child hc
      by_cases hsc : SameField s c
      · exact ih (hu.below.2 s hs).1 (hd.below.2 c hc).1 (mergeable_below (fun h0 => (hinner h0).2.2) hs hc hsc)
          (by omega) hr
      · obtain rfl := Option.some.inj ((mergeField_other hsc).symm.trans hr)
        omega
/-! ### What is made is canonical -/

theorem mem_mergeMetas (hus : ∀ g ∈ us, Genuine g ∧ g.tag ≤ ucMaxMetaNum) (hds : ∀ g ∈ ds, Genuine g ∧ g.tag ≤ ucMaxMetaNum)
    (h : mergeMetas us ds = some ms) : ∀ g ∈ ms, Genuine g ∧ g.tag ≤ ucMaxMetaNum :=
  forall_putAll hds (fun g hg => hus g (List.mem_filter.mp hg).1) (fun s d r hs _ hr => by
    cases hr
    exact hs) h

theorem layout_of_merge (hu : Genuine u) (hd : Genuine d) (hdne : (contentOf d).2 ≠ [])
    (hus : levels ≠ 0 → ((contentOf u).2.map ident).Nodup)
    (hms : mergeMetas (contentOf u).1 (contentOf d).1 = some ms)
    (hcs : mergeChildren levels (contentOf u).2 (contentOf d).2 = some cs)
    (hbelow : ∀ s ∈ (contentOf u).2, ∀ c ∈ (contentOf d).2, ∀ r, mergeField levels s c = some r →
      Genuine r ∧ SameField c r) : Layout ms cs := by
  obtain ⟨-, -, hl⟩ := hd.layout hdne
  have hmetas := mem_mergeMetas hu.below.1 hd.below.1 hms
  have hchildren : ∀ g ∈ cs, Genuine g ∧ ¬g.tag ≤ ucMaxMetaNum := by
    intro g hg
    rcases mem_mergeChildren hus hcs hg with hg | hg | ⟨-, s, hs, c, hc, -, hr⟩
    · exact hd.below.2 g hg
    · exact hu.below.2 g hg
    · obtain ⟨hgenuine, hsame⟩ := hbelow s hs c hc g hr
      exact ⟨hgenuine, hsame.1 ▸ (hd.below.2 c hc).2⟩
  refine ⟨fun g hg => ?_, fun g hg => (hmetas g hg).2, fun g hg => (hchildren g hg).2,
    fun g hg h1 => hl.short g (mem_of_mergeMetas hms g hg h1) h1⟩
  exact (List.mem_append.mp hg).elim (fun hg => (hmetas g hg).1) fun hg => (hchildren g hg).1

/-- What is kept by merges of the levels below is kept by a merge of children. -/
theorem merge_below (ih : ∀ {u d r : PbField}, Genuine u → Genuine d → Mergeable levels u d →
      u.encode.length + d.encode.length < 2 ^ 64 → mergeField levels u d = some r → Genuine r ∧ SameField d r)
    (hu : Genuine u) (hd : Genuine d) (hmerge : Mergeable (levels + 1) u d)
    (hlen : u.encode.length + d.encode.length < 2 ^ 64) :
    ∀ s ∈ (contentOf u).2, ∀ c ∈ (contentOf d).2, ∀ r, mergeField levels s c = some r → Genuine r ∧ SameField c r := by
  intro s hs c hc r hj
  obtain ⟨-, hinner⟩ := hmerge (List.ne_nil_of_mem hs) (List.ne_nil_of_mem hc)
  have hslt := hu.length_child hs
  have hclt := hd.length_child hc
  by_cases hsc : SameField s c
  · exact ih (hu.below.2 s hs).1 (hd.below.2 c hc).1 (mergeable_below (fun h0 => (hinner h0).2.2) hs hc hsc)
      (by omega) hj
  · obtain rfl := Option.some.inj ((mergeField_other hsc).symm.trans hj)
    exact ⟨(hd.below.2 _ hc).1, rfl, rfl⟩

/-- **What an update makes is canonical**, and keeps its tag and key. -/
theorem Genuine.of_merge : ∀ (levels : ℕ) {u d r : PbField}, Genuine u → Genuine d → Mergeable levels u d →
    u.encode.length + d.encode.length < 2 ^ 64 → mergeField levels u d = some r → Genuine r ∧ SameField d r := by
  intro levels
  induction levels with
  | zero =>
    intro u d r hu hd _ _ h
    rw [mergeField] at h
    split at h
    · next hsame =>
      have ho := overwritten hu hd hsame h
      exact ⟨ho.genuine, ho.same.1.trans hsame.1.symm, ho.same.2.trans hsame.2.symm⟩
    · cases h
      exact ⟨hd, rfl, rfl⟩
  | succ levels ih =>
    intro u d r hu hd hmerge hlen h
    have hrlen := Nat.lt_of_le_of_lt (length_mergeField _ hu hd hmerge hlen h) hlen
    cases mergeField_eq_some.mp h with
    | other _ hr =>
      rw [hr]
      exact ⟨hd, rfl, rfl⟩
    | value hsame _ h =>
      have ho := overwritten hu hd hsame h
      exact ⟨ho.genuine, ho.same.1.trans hsame.1.symm, ho.same.2.trans hsame.2.symm⟩
    | content ms cs hsame hune hdne hms hcs hr =>
      subst hr
      have ht := type_of_content hdne
      have hl := layout_of_merge hu hd hdne (fun h0 => ((hmerge hune hdne).2 h0).1) hms hcs
        (merge_below ih hu hd hmerge hlen)
      exact ⟨hl.genuine_withContent ht hd.ok.1 (Nat.lt_trans (length_withContent ht ms cs) hrlen), rfl, by
        rw [hl.fieldKey_withContent ht, leadingKey_mergeMetas hms, hd.fieldKey hdne]⟩

/-- The identities of a merge are those of its children. -/
theorem identified_of_mergeItems {is : List ((UInt32 × Bytes) × PbField)} (hus : (us.map ident).Nodup)
    (h : mergeItems (mergeField levels) (identified us) (identified ds) = some is)
    (hbelow : ∀ s ∈ us, ∀ c ∈ ds, ∀ r, mergeField levels s c = some r → SameField c r) :
    is = identified (is.map Prod.snd) := by
  have hident : ∀ i ∈ is, i = (ident i.2, i.2) := by
    intro i hi
    rcases mem_putAll (keeps_item _) (by rw [fst_identified]; exact hus) h hi with hx | hx | ⟨s, hs, d, hd, -, hj⟩
    · obtain ⟨x, -, rfl⟩ := List.mem_map.mp hx
      rfl
    · obtain ⟨x, -, rfl⟩ := List.mem_map.mp hx
      rfl
    · obtain ⟨x, hx, rfl⟩ := List.mem_map.mp hs
      obtain ⟨y, hy, rfl⟩ := List.mem_map.mp hd
      obtain ⟨r, hr, rfl⟩ := Option.map_eq_some_iff.mp hj
      have hsame := hbelow x hx y hy r hr
      exact Prod.ext (Prod.ext hsame.1.symm (congrArg KnvKey.bytes hsame.2.symm)) rfl
  rw [identified, List.map_map]
  exact ((List.map_congr_left fun i hi => (hident i hi).symm).trans (List.map_id _)).symm

/-- The content of a merge of content. -/
theorem contentOf_merge (hu : Genuine u) (hd : Genuine d) (hune : (contentOf u).2 ≠ []) (hdne : (contentOf d).2 ≠ [])
    (hmerge : Mergeable (levels + 1) u d) (hlen : u.encode.length + d.encode.length < 2 ^ 64)
    (hms : mergeMetas (contentOf u).1 (contentOf d).1 = some ms)
    (hcs : mergeChildren levels (contentOf u).2 (contentOf d).2 = some cs) :
    contentOf (withContent d ms cs) = (ms, cs) :=
  (layout_of_merge hu hd hdne (fun h0 => ((hmerge hune hdne).2 h0).1) hms hcs
    (merge_below (Genuine.of_merge levels) hu hd hmerge hlen)).contentOf_withContent (type_of_content hdne)

theorem KeepsKey.of_merge (hu : Genuine u) (hd : Genuine d) (hsame : SameField u d) (hkey : SameField d r)
    (hwu : KeepsKey levels w u) (hwd : KeepsKey levels w d) (h : mergeField levels u d = some r) : KeepsKey levels w r := by
  intro h1 hw
  subst h1
  rcases hwd rfl hw with hdnil | hnone
  swap
  · exact .inr (hkey.2 ▸ hnone)
  cases mergeField_eq_some.mp h with
  | other hne _ => exact absurd hsame hne
  | content ms cs _ _ hdne _ _ _ => exact absurd hdnil hdne
  | value _ _ hr =>
    have ho := overwritten hu hd hsame hr
    rcases hwu rfl hw with hunil | hnone
    · exact .inl (ho.content ▸ hunil)
    · exact .inr (ho.same.2 ▸ hnone)

/-- **What can be merged into two messages can be merged into their merge.** -/
theorem Mergeable.of_merge : ∀ (levels : ℕ) {w u d r : PbField}, Genuine u → Genuine d → Mergeable levels w u →
    Mergeable levels w d → Mergeable levels u d → u.encode.length + d.encode.length < 2 ^ 64 →
    mergeField levels u d = some r → Mergeable levels w r := by
  intro levels
  induction levels with
  | zero => exact fun _ _ _ _ _ _ _ => trivial
  | succ levels ih =>
    intro w u d r hu hd hwu hwd hmerge hlen h
    cases mergeField_eq_some.mp h with
    | other _ hr =>
      rw [hr]
      exact hwd
    | value hsame _ h =>
      have ho := overwritten hu hd hsame h
      rw [Mergeable, ho.content]
      exact hwu
    | content ms cs hsame hune hdne hms hcs hr =>
      subst hr
      have hcontent := contentOf_merge hu hd hune hdne hmerge hlen hms hcs
      have hbelow := merge_below (Genuine.of_merge levels) hu hd hmerge hlen
      obtain ⟨hnd, hinner⟩ := hmerge hune hdne
      rw [Mergeable, hcontent]
      intro hwne _
      obtain ⟨-, hwinner⟩ := hwu hwne hune
      obtain ⟨-, hwinner'⟩ := hwd hwne hdne
      refine ⟨nodup_putAll keeps_meta hms hnd, fun h0 => ⟨(hwinner h0).1, ?_, fun s hs c hc hsc => ?_⟩⟩
      · obtain ⟨is, his, rfl⟩ := Option.map_eq_some_iff.mp ((if_neg h0).symm.trans hcs)
        have hids := identified_of_mergeItems (hinner h0).1 his fun s hs c hc r hj => (hbelow s hs c hc r hj).2
        rw [← fst_identified, ← hids]
        exact nodup_putAll (keeps_item _) his (by rw [fst_identified]; exact (hinner h0).2.1)
      · rcases mem_mergeChildren (fun h0 => (hinner h0).1) hcs hc with hc | hc | ⟨-, x, hx, y, hy, -, hj⟩
        · exact (hwinner' h0).2.2 s hs c hc hsc
        · exact (hwinner h0).2.2 s hs c hc hsc
        by_cases hxy : SameField x y
        swap
        · obtain rfl := Option.some.inj ((mergeField_other hxy).symm.trans hj)
          exact (hwinner' h0).2.2 s hs _ hy hsc
        obtain ⟨-, hyc⟩ := hbelow x hx y hy c hj
        have hxlt := hu.length_child hx
        have hylt := hd.length_child hy
        have hsy : SameField s y := ⟨hyc.1.symm.trans hsc.1, hyc.2.symm.trans hsc.2⟩
        have hsx : SameField s x := ⟨hxy.1.symm.trans hsy.1, hxy.2.symm.trans hsy.2⟩
        obtain ⟨hkeep, hbelow⟩ := (hwinner h0).2.2 s hs x hx hsx
        obtain ⟨hkeep', hbelow'⟩ := (hwinner' h0).2.2 s hs y hy hsy
        have hgx := (hu.below.2 x hx).1
        have hgy := (hd.below.2 y hy).1
        exact ⟨hkeep.of_merge hgx hgy hxy hyc hkeep' hj,
          ih hgx hgy hbelow hbelow' (mergeable_below (fun h0 => (hinner h0).2.2) hx hy hxy) (by omega) hj⟩

/-! ### The same update again -/

/-- Messages that are merged one after the other. -/
def mergeAll (levels : ℕ) (us : List PbField) (d : PbField) : Option PbField :=
  us.foldlM (fun d u => mergeField levels u d) d

/-- A stored message is updated by one message after the other, and is only bytes in between. -/
def updateWires (order : List UInt32 → List UInt32) (maxLevel : ℤ) (upds : List Bytes) (data : Bytes) :
    Except KnvErr Bytes :=
  upds.foldlM (fun data upd => updateWire order maxLevel upd data) data

/-- Updates of a message that can be merged into it and into each other, and fit an `int` together. -/
structure Compatible (levels : ℕ) (us : List PbField) (d : PbField) : Prop where
  genuine : ∀ f ∈ d :: us, Genuine f
  mergeable : ∀ u ∈ us, ∀ f ∈ d :: us, Mergeable levels u f
  short : ((d :: us).map (·.encode.length)).sum < 2 ^ 31

theorem Compatible.length (h : Compatible levels (u :: us) d) : u.encode.length + d.encode.length < 2 ^ 31 := by
  have hshort := h.short
  simp only [List.map_cons, List.sum_cons] at hshort
  omega

/-- An update leaves a message for the other updates. -/
theorem Compatible.step (h : Compatible levels (u :: us) d) (hr : mergeField levels u d = some r) :
    Compatible levels us r ∧ SameField d r ∧ r.encode.length ≤ u.encode.length + d.encode.length := by
  have hlen := h.length
  have hd := h.genuine d (List.mem_cons_self ..)
  have hu := h.genuine u (List.mem_cons_of_mem _ (List.mem_cons_self ..))
  have hmerge := h.mergeable u (List.mem_cons_self ..) d (List.mem_cons_self ..)
  have hle := length_mergeField levels hu hd hmerge (by omega) hr
  obtain ⟨hgenuine, hsame⟩ := Genuine.of_merge levels hu hd hmerge (by omega) hr
  have hof : ∀ f ∈ us, f ∈ u :: us ∧ f ∈ d :: u :: us := fun f hf =>
    ⟨List.mem_cons_of_mem _ hf, List.mem_cons_of_mem _ (List.mem_cons_of_mem _ hf)⟩
  refine ⟨⟨fun f hf => ?_, fun w hw f hf => ?_, ?_⟩, hsame, hle⟩
  · rcases List.mem_cons.mp hf with rfl | hf
    · exact hgenuine
    · exact h.genuine f (hof f hf).2
  · rcases List.mem_cons.mp hf with rfl | hf
    · exact Mergeable.of_merge levels hu hd (h.mergeable w (hof w hw).1 u (List.mem_cons_of_mem _ (List.mem_cons_self ..)))
        (h.mergeable w (hof w hw).1 d (List.mem_cons_self ..)) hmerge (by omega) hr
    · exact h.mergeable w (hof w hw).1 f (hof f hf).2
  · have hshort := h.short
    simp only [List.map_cons, List.sum_cons] at hshort ⊢
    omega

section

variable {order order' : List UInt32 → List UInt32} {maxLevel : ℤ} {b : Bytes}

theorem Compatible.updateWire (horder : ∀ l t, t ∈ order l ↔ t ∈ l) (h : Compatible (maxLevel + 1).toNat (u :: us) d) :
    (updateWire order maxLevel u.encode d.encode).toOption = (mergeField (maxLevel + 1).toNat u d).map PbField.encode := by
  have hu := h.genuine u (List.mem_cons_of_mem _ (List.mem_cons_self ..))
  refine updateWire_encode horder hu (h.genuine d (List.mem_cons_self ..)) ?_
    (h.mergeable u (List.mem_cons_self ..) d (List.mem_cons_self ..))
  by_cases ht : u.type = .string
  · have hlt := length_str_lt ht
    have hlen := h.length
    omega
  · rw [← hu.norm]
    rw [show u.norm.val.str = [] from str_norm ht u.val]
    exact Nat.two_pow_pos 31

theorem toOption_eq_some {e : Except KnvErr Bytes} : e.toOption = some b ↔ e = .ok b := by
  cases e with
  | error x => exact ⟨fun h => (by cases h), fun h => (by cases h)⟩
  | ok x => exact ⟨fun h => congrArg _ (Option.some.inj h), fun h => congrArg _ (Except.ok.inj h)⟩

/-- What many updates make. -/
theorem Compatible.mergeAll : ∀ {us : List PbField} {d r : PbField}, Compatible levels us d →
    mergeAll levels us d = some r → Genuine r ∧ SameField d r ∧
      r.encode.length ≤ ((d :: us).map (·.encode.length)).sum := by
  intro us
  induction us with
  | nil =>
    intro d r h hr
    cases hr
    exact ⟨h.genuine d (List.mem_cons_self ..), ⟨rfl, rfl⟩, Nat.le_add_right ..⟩
  | cons u us ih =>
    intro d r h hr
    obtain ⟨x, hx, hr⟩ := Option.bind_eq_some_iff.mp hr
    obtain ⟨hcompat, hsame, hle⟩ := h.step hx
    obtain ⟨hgenuine, hkept, hlen⟩ := ih hcompat hr
    refine ⟨hgenuine, ⟨hkept.1.trans hsame.1, hkept.2.trans hsame.2⟩, ?_⟩
    simp only [List.map_cons, List.sum_cons] at hlen ⊢
    omega

theorem Compatible.updateWires (horder : ∀ l t, t ∈ order l ↔ t ∈ l) : ∀ {us : List PbField} {d : PbField},
    Compatible (maxLevel + 1).toNat us d → (updateWires order maxLevel (us.map PbField.encode) d.encode).toOption =
      (KnvProto.mergeAll (maxLevel + 1).toNat us d).map PbField.encode := by
  intro us
  induction us with
  | nil => exact fun _ => rfl
  | cons u us ih =>
    intro d h
    have hone : (KnvProto.updateWire order maxLevel u.encode d.encode).toOption = _ := h.updateWire horder
    have hfold : KnvProto.updateWires order maxLevel ((u :: us).map PbField.encode) d.encode =
        (KnvProto.updateWire order maxLevel u.encode d.encode).bind
          (KnvProto.updateWires order maxLevel (us.map PbField.encode)) := rfl
    have hmerges : KnvProto.mergeAll (maxLevel + 1).toNat (u :: us) d =
        (mergeField (maxLevel + 1).toNat u d).bind (KnvProto.mergeAll (maxLevel + 1).toNat us) := rfl
    rw [hfold, hmerges]
    cases hr : mergeField (maxLevel + 1).toNat u d with
    | none =>
      rw [hr] at hone
      cases hw : KnvProto.updateWire order maxLevel u.encode d.encode with
      | ok b =>
        rw [hw] at hone
        cases hone
      | error e => rfl
    | some x =>
      rw [hr] at hone
      rw [toOption_eq_some.mp hone]
      exact ih (h.step hr).1

/-- **Updates of a stored message are merges of messages**, however many come, and in whatever order the tags of each are
gone through: the bytes that are stored at the end are those of the merged message, or an update fails where a merge
does. What is stored can be updated again, keeps its tag and key, and is no longer than all messages together. -/
theorem updateWires_encode {us : List PbField} (horder : ∀ l t, t ∈ order l ↔ t ∈ l)
    (h : Compatible (maxLevel + 1).toNat us d) :
    (KnvProto.updateWires order maxLevel (us.map PbField.encode) d.encode).toOption =
        (mergeAll (maxLevel + 1).toNat us d).map PbField.encode ∧
      ∀ r, mergeAll (maxLevel + 1).toNat us d = some r → Genuine r ∧ SameField d r ∧
        r.encode.length ≤ ((d :: us).map (·.encode.length)).sum :=
  ⟨h.updateWires horder, fun _ hr => h.mergeAll hr⟩

end

/-! ### Runs -/

instance (levels : ℕ) (u d : PbField) : Decidable (KeepsKey levels u d) := inferInstanceAs (Decidable (_ → _ → _ ∨ _))

instance decidableMergeable : ∀ (levels : ℕ) (u d : PbField), Decidable (Mergeable levels u d)
  | 0, _, _ => isTrue trivial
  | levels + 1, _, _ =>
    have := decidableMergeable levels
    inferInstanceAs (Decidable (_ → _ → _ ∧ (_ → _ ∧ _ ∧ ∀ s ∈ _, ∀ c ∈ _, _ → _ ∧ _)))

/-- A message with the key `k`, and numbers as its other metas and its children. -/
def keyed (x : List (UInt32 × UInt64) × List (UInt32 × UInt64)) : PbField :=
  withContent ⟨20, .string, {}⟩ (⟨1, .string, { str := [107] }⟩ :: x.1.map fun m => ⟨m.1, .varint, { i64 := m.2 }⟩)
    (x.2.map fun c => ⟨c.1, .varint, { i64 := c.2 }⟩)

theorem genuine_keyed {x : List (UInt32 × UInt64) × List (UInt32 × UInt64)}
    (hms : ∀ m ∈ x.1, TagOk m.1 ∧ m.1 ≤ ucMaxMetaNum) (hcs : ∀ c ∈ x.2, TagOk c.1 ∧ ¬c.1 ≤ ucMaxMetaNum)
    (hlen : (keyed x).encode.length < 2 ^ 64) : Genuine (keyed x) := by
  have hstr := Nat.lt_trans (length_str_lt (f := keyed x) rfl) hlen
  refine Layout.genuine_withContent ⟨fun g hg => ?_, fun g hg => ?_, fun g hg => ?_, fun g hg _ => ?_⟩ rfl (by decide) hstr
  · rcases List.mem_append.mp hg with hg | hg
    · rcases List.mem_cons.mp hg with rfl | hg
      · exact ⟨⟨by decide, by decide⟩, rfl, .leaf (by decide +kernel)⟩
      · obtain ⟨m, hm, rfl⟩ := List.mem_map.mp hg
        exact ⟨⟨(hms m hm).1, Nat.two_pow_pos 64⟩, rfl, canon_nil _⟩
    · obtain ⟨c, hc, rfl⟩ := List.mem_map.mp hg
      exact ⟨⟨(hcs c hc).1, Nat.two_pow_pos 64⟩, rfl, canon_nil _⟩
  · rcases List.mem_cons.mp hg with rfl | hg
    · decide
    · obtain ⟨m, hm, rfl⟩ := List.mem_map.mp hg
      exact (hms m hm).2
  · obtain ⟨c, hc, rfl⟩ := List.mem_map.mp hg
    exact (hcs c hc).2
  · rcases List.mem_cons.mp hg with rfl | hg
    · decide
    · obtain ⟨m, -, rfl⟩ := List.mem_map.mp hg
      exact Nat.two_pow_pos 16

theorem compatible_keyed {xs : List (List (UInt32 × UInt64) × List (UInt32 × UInt64))}
    {y : List (UInt32 × UInt64) × List (UInt32 × UInt64)}
    (htags : (y :: xs).all fun x => (x.1.all fun m => decide (TagOk m.1 ∧ m.1 ≤ ucMaxMetaNum)) &&
      x.2.all fun c => decide (TagOk c.1 ∧ ¬c.1 ≤ ucMaxMetaNum))
    (hmerge : ∀ x ∈ xs, ∀ z ∈ y :: xs, Mergeable levels (keyed x) (keyed z))
    (hshort : (encodeAll ((y :: xs).map keyed)).length < 2 ^ 31) :
    Compatible levels (xs.map keyed) (keyed y) := by
  have hlen : ∀ x ∈ y :: xs, (keyed x).encode.length < 2 ^ 31 := fun x hx =>
    Nat.lt_of_le_of_lt (length_encode_le_of_mem (List.mem_map_of_mem hx)) hshort
  refine ⟨fun f hf => ?_, fun u hu f hf => ?_, (length_encodeAll _).symm.trans_lt hshort⟩
  · obtain ⟨x, hx, rfl⟩ := List.mem_map.mp (show f ∈ (y :: xs).map keyed from hf)
    obtain ⟨hms, hcs⟩ := Bool.and_eq_true_iff.mp (List.all_eq_true.mp htags x hx)
    exact genuine_keyed (fun m hm => of_decide_eq_true (List.all_eq_true.mp hms m hm))
      (fun c hc => of_decide_eq_true (List.all_eq_true.mp hcs c hc)) (Nat.lt_trans (hlen x hx) (by decide))
  · obtain ⟨x, hx, rfl⟩ := List.mem_map.mp hu
    obtain ⟨z, hz, rfl⟩ := List.mem_map.mp (show f ∈ (y :: xs).map keyed from hf)
    exact hmerge x hx z hz

/-- Two updates of a message with a key, two children and a meta. -/
theorem updateWires_encode_keyed : (updateWires id 1 ([([(5, 8)], [(13, 9), (14, 3)]), ([(6, 4)], [(14, 5)])].map
    fun x => (keyed x).encode) (keyed ([(5, 7)], [(12, 1), (13, 2)])).encode).toOption =
      some (keyed ([(5, 8), (6, 4)], [(12, 1), (13, 9), (14, 5)])).encode := by
  have h := (@updateWires_encode (keyed ([(5, 7)], [(12, 1), (13, 2)])) id 1
    ([([(5, 8)], [(13, 9), (14, 3)]), ([(6, 4)], [(14, 5)])].map keyed) (fun _ _ => Iff.rfl)
    (compatible_keyed (by decide +kernel) (by decide +kernel) (by decide +kernel))).1
  rw [List.map_map] at h
  refine h.trans ?_
  decide +kernel

end KnvProto
