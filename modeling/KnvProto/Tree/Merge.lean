import KnvProto.Library.Merge
import KnvProto.Tree.Canonical

/-!
# What an update means

An update, said of encodings: the fields of one message are merged into those of another
(`mergeField`), without nodes, caches, an index or sizes. Metas overwrite the metas with
their tags. Above the last level a child is merged into the one with its tag and key, or
comes to the end; at the last level the children replace all children with their tags. A
value that has no children, or is to get some, is replaced as a whole.

`Tree.Merged` shows that this is what `UpdateSubTree` does.
-/

namespace KnvProto

open Merge

/-! ### Fields as messages -/

/-- The metas and the children of a value: one that is no message has none. -/
def content (s : Bytes) : List PbField × List PbField :=
  if (pbBegin s).isSome ∧ (pbScan s).2 then
    (((pbScan s).1.map (·.1)).filter (·.tag ≤ ucMaxMetaNum), ((pbScan s).1.map (·.1)).filter (¬·.tag ≤ ucMaxMetaNum))
  else ([], [])

/-- The metas and the children of a field. -/
def contentOf (f : PbField) : List PbField × List PbField := if f.type = .string then content f.val.str else ([], [])

/-- The key that the value of a field begins with. -/
def fieldKey (f : PbField) : KnvKey := if f.type = .string then KnvKey.ofBytes f.val.str else {}

/-- What identifies a field among its siblings: its tag and the bytes of its key. -/
def ident (f : PbField) : UInt32 × Bytes := (f.tag, (fieldKey f).bytes)

/-- Fields with what identifies them: a child that is merged into keeps its identity. -/
def identified (fs : List PbField) : List ((UInt32 × Bytes) × PbField) := fs.map fun f => (ident f, f)

@[simp] theorem fst_identified (fs : List PbField) : (identified fs).map Prod.fst = fs.map ident := by
  rw [identified, List.map_map]
  rfl

@[simp] theorem snd_identified (fs : List PbField) : (identified fs).map Prod.snd = fs := by
  rw [identified, List.map_map]
  exact List.map_id _

/-- Are they the same node, with the same tag and key? -/
def SameField (u d : PbField) : Prop := d.tag = u.tag ∧ fieldKey d = fieldKey u

instance (u d : PbField) : Decidable (SameField u d) := inferInstanceAs (Decidable (_ ∧ _))

/-! ### Merging fields -/

/-- The value of a field is replaced: a string by a string, a number by a number. -/
def overwriteField (u d : PbField) : Option PbField :=
  if u.type = .string ↔ d.type = .string then some (PbField.norm { d with val := u.val }) else none

/-- Metas overwrite those with their tags. -/
def mergeMetas (us ds : List PbField) : Option (List PbField) :=
  putAll (·.tag) (fun s _ => some s) (us.filter fun f => 1 < f.tag) ds

/-- A child of the update is joined with a child, which stays what it is. -/
def joinItem (join : PbField → PbField → Option PbField) (s d : (UInt32 × Bytes) × PbField) :
    Option ((UInt32 × Bytes) × PbField) :=
  (join s.2 d.2).map fun r => (d.1, r)

/-- Children are merged into those that they are for. -/
def mergeItems (join : PbField → PbField → Option PbField) (us ds : List ((UInt32 × Bytes) × PbField)) :
    Option (List ((UInt32 × Bytes) × PbField)) :=
  putAll (·.1) (joinItem join) us ds

/-- At the last level, children replace those with their tags. -/
def replaceChildren (us ds : List PbField) : List PbField := ds.filter (fun f => f.tag ∉ us.map (·.tag)) ++ us

/-- Items whose tags are dropped, and new ones at the end. -/
theorem snd_replace {is : List ((UInt32 × Bytes) × PbField)} {us : List PbField} {tags : List UInt32}
    (htags : ∀ t, t ∈ tags ↔ t ∈ us.map (·.tag)) :
    ((is.filter fun i => i.2.tag ∉ tags) ++ identified us).map Prod.snd = replaceChildren us (is.map Prod.snd) := by
  rw [List.map_append, snd_identified, replaceChildren, List.filter_map]
  congr 2
  refine List.filter_congr fun i _ => ?_
  simp [htags]

/-- An update of `d` by `u`, on the levels that are left: `none` is a failure. -/
def mergeField : ℕ → PbField → PbField → Option PbField
  | 0, u, d => if SameField u d then overwriteField u d else some d
  | levels + 1, u, d =>
    if ¬SameField u d then some d
    else if (contentOf u).2 = [] ∨ (contentOf d).2 = [] then overwriteField u d
    else
      (mergeMetas (contentOf u).1 (contentOf d).1).bind fun ms =>
        (if levels = 0 then some (replaceChildren (contentOf u).2 (contentOf d).2)
          else (mergeItems (mergeField levels) (identified (contentOf u).2) (identified (contentOf d).2)).map
            (·.map Prod.snd)).map fun cs =>
          { d with val := { str := encodeAll (ms ++ cs) } }

/-- A node that is looked into at the last level has its value replaced, and keeps its key: it has no children, or no
key. (`SetValue` loses the key of a node with children, and the index of the parent does not hear of it.) -/
def KeepsKey (levels : ℕ) (u d : PbField) : Prop :=
  levels = 1 → (contentOf u).2 = [] → (contentOf d).2 = [] ∨ (fieldKey d).bytes = []

/-- What an update is for can be told: in what it goes into, no two metas have the same tag, and above the last level no
two children have the same tag and key, or lose it. -/
def Mergeable : ℕ → PbField → PbField → Prop
  | 0, _, _ => True
  | levels + 1, u, d => (contentOf u).2 ≠ [] → (contentOf d).2 ≠ [] →
      ((contentOf d).1.map (·.tag)).Nodup ∧
        (levels ≠ 0 → ((contentOf u).2.map ident).Nodup ∧ ((contentOf d).2.map ident).Nodup ∧
          ∀ s ∈ (contentOf u).2, ∀ c ∈ (contentOf d).2, SameField s c → KeepsKey levels s c ∧ Mergeable levels s c)

/-! ### Canonical fields -/

/-- A field as it is read, with a canonical value. -/
structure Genuine (f : PbField) : Prop where
  ok : f.Ok
  norm : f.norm = f
  canon : Canon MetasFirst f.val.str

/-- The metas and the children of a canonical message. -/
theorem content_encodeAll {ms cs : List PbField} (hok : ∀ f ∈ ms ++ cs, f.Ok ∧ f.norm = f)
    (hms : ∀ f ∈ ms, f.tag ≤ ucMaxMetaNum) (hcs : ∀ f ∈ cs, ¬f.tag ≤ ucMaxMetaNum) :
    content (encodeAll (ms ++ cs)) = (ms, cs) := by
  have hscan := pbScan_encodeAll fun f hf => (hok f hf).1
  have hfields : ((pbScan (encodeAll (ms ++ cs))).1.map (·.1)) = ms ++ cs := by
    rw [hscan, List.map_map]
    exact (List.map_congr_left fun f hf => (hok f hf).2).trans (List.map_id _)
  unfold content
  rw [hfields, List.filter_append, List.filter_append, List.filter_eq_self.mpr fun f hf => decide_eq_true (hms f hf),
    List.filter_eq_nil_iff.mpr fun f hf => by simpa using hcs f hf,
    List.filter_eq_nil_iff.mpr fun f hf => by simpa using hms f hf,
    List.filter_eq_self.mpr fun f hf => decide_eq_true (hcs f hf), hscan]
  cases hfs : ms ++ cs with
  | nil =>
    obtain ⟨rfl, rfl⟩ := List.append_eq_nil_iff.mp hfs
    exact if_neg fun h => by cases h.1
  | cons f fs =>
    rw [encodeAll_cons, pbBegin_encode (hok f (hfs ▸ List.mem_cons_self ..)).1, if_pos ⟨rfl, rfl⟩, List.append_nil]
    rfl

/-- What a canonical message is made of: metas, then children, and short keys. -/
structure Layout (ms cs : List PbField) : Prop where
  genuine : ∀ g ∈ ms ++ cs, Genuine g
  metas : ∀ g ∈ ms, g.tag ≤ ucMaxMetaNum
  children : ∀ g ∈ cs, ¬g.tag ≤ ucMaxMetaNum
  short : ∀ g ∈ ms, g.tag = 1 → g.val.str.length < 2 ^ 16

theorem Layout.content {ms cs : List PbField} (h : Layout ms cs) : content (encodeAll (ms ++ cs)) = (ms, cs) :=
  content_encodeAll (fun g hg => ⟨(h.genuine g hg).ok, (h.genuine g hg).norm⟩) h.metas h.children

theorem Layout.canon {ms cs : List PbField} (h : Layout ms cs) : Canon MetasFirst (encodeAll (ms ++ cs)) := by
  refine .message ⟨⟨ms, cs, rfl, h.metas, h.children⟩, fun g hg htag => ?_⟩
    (fun g hg => ⟨(h.genuine g hg).ok, (h.genuine g hg).norm⟩) fun g hg => (h.genuine g hg).canon
  rcases List.mem_append.mp hg with hg | hg
  · exact h.short g hg htag
  · exact absurd (htag ▸ (by decide : (1 : UInt32) ≤ ucMaxMetaNum)) (h.children g hg)

/-- A canonical field is its metas and children, or has none. -/
theorem Genuine.content {f : PbField} (h : Genuine f) : contentOf f = ([], []) ∨
    f.type = .string ∧ f.val.str = encodeAll ((contentOf f).1 ++ (contentOf f).2) ∧
      Layout (contentOf f).1 (contentOf f).2 := by
  unfold contentOf
  split
  swap
  · exact .inl rfl
  next ht =>
  have hcanon := h.canon
  generalize f.val.str = s at hcanon
  cases hcanon with
  | leaf hs =>
    refine .inl (if_neg fun hb => ?_)
    rw [hs] at hb
    cases hb.1
  | @message fs hfirst hok hstr =>
    obtain ⟨ms, cs, rfl, hms, hcs⟩ := hfirst.order
    rw [content_encodeAll hok hms hcs]
    exact .inr ⟨ht, rfl, fun g hg => ⟨(hok g hg).1, (hok g hg).2, hstr g hg⟩, hms, hcs,
      fun g hg => hfirst.short g (List.mem_append_left _ hg)⟩

/-- What is in a canonical field is canonical. -/
theorem Genuine.below {f : PbField} (h : Genuine f) : (∀ g ∈ (contentOf f).1, Genuine g ∧ g.tag ≤ ucMaxMetaNum) ∧
    ∀ g ∈ (contentOf f).2, Genuine g ∧ ¬g.tag ≤ ucMaxMetaNum := by
  rcases h.content with hnil | ⟨-, -, hmsg⟩
  · rw [hnil]
    exact ⟨fun g hg => absurd hg List.not_mem_nil, fun g hg => absurd hg List.not_mem_nil⟩
  · exact ⟨fun g hg => ⟨hmsg.genuine g (List.mem_append_left _ hg), hmsg.metas g hg⟩,
      fun g hg => ⟨hmsg.genuine g (List.mem_append_right _ hg), hmsg.children g hg⟩⟩

/-- Only a string has children. -/
theorem type_of_content {f : PbField} (h : (contentOf f).2 ≠ []) : f.type = .string := by
  by_contra ht
  rw [contentOf, if_neg ht] at h
  exact h rfl

/-- A key is the first meta, and is written as it. -/
theorem Genuine.key {f : PbField} (h : Genuine f) (hkey : (fieldKey f).bytes ≠ []) :
    ∃ m ms, (contentOf f).1 = m :: ms ∧ m.tag = 1 ∧
      PbField.encode ⟨1, (fieldKey f).type, (fieldKey f).getValue⟩ = m.encode := by
  unfold fieldKey contentOf at *
  by_cases ht : f.type = .string
  swap
  · rw [if_neg ht] at hkey
    exact absurd rfl hkey
  rw [if_pos ht] at hkey ⊢
  rw [if_pos ht]
  have hcanon := h.canon
  generalize f.val.str = s at hcanon hkey
  cases hcanon with
  | leaf hs =>
    rw [KnvKey.ofBytes, hs] at hkey
    exact absurd rfl hkey
  | @message fs hfirst hok _ =>
    obtain ⟨ms, cs, rfl, hms, hcs⟩ := hfirst.order
    rw [content_encodeAll hok hms hcs]
    cases hfs : ms ++ cs with
    | nil =>
      rw [hfs] at hkey
      exact absurd rfl hkey
    | cons g gs =>
      obtain ⟨hgok, hgn⟩ := hok g (hfs ▸ List.mem_cons_self ..)
      rw [hfs, encodeAll_cons, ofBytes_encode hgok hgn] at hkey
      rw [encodeAll_cons, ofBytes_encode hgok hgn]
      have htag : g.tag = 1 := by
        by_contra hne
        rw [if_neg hne] at hkey
        exact hkey rfl
      rw [if_pos htag]
      cases ms with
      | nil => exact absurd (htag ▸ (by decide : (1 : UInt32) ≤ ucMaxMetaNum)) (hcs g (by
          rw [List.nil_append] at hfs
          exact hfs ▸ List.mem_cons_self ..))
      | cons m ms =>
        cases hfs
        exact ⟨g, ms, rfl, htag, encode_key htag (hfirst.short g (List.mem_append_left _ (List.mem_cons_self ..)) htag)⟩

end KnvProto
