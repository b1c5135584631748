import KnvProto.Codec.Stream
import KnvProto.Tree.Room

/-!
# Folding

`Fold` writes a changed node into a block of the memory pool and takes what is written
for its value; the nodes below come back when the node is expanded again.

`folds_of_run`: in a tree with exact sizes this works for a node that has to be written
exactly when its size is served by a pool — for a larger block `GetAllocSize()` is `0`,
which `Fold` takes for the room it has —, its key is its first meta, and its metas and
children have tags that the wire keeps apart.
-/

namespace KnvProto

open Memory

/-! ### Tags on the wire -/

namespace KnvNode

/-! ### What is asked of a fold -/

/-- The nodes have the same tag and type, and are written as the same bytes. -/
structure SameNode (x y : KnvNode) : Prop where
  tag : y.tag = x.tag
  type : y.type = x.type
  bytes : y.serializeStr.toOption = x.serializeStr.toOption

theorem SameNode.refl (x : KnvNode) : SameNode x x := ⟨rfl, rfl, rfl⟩

theorem Wire.serializeStr {n : KnvNode} {f : PbField} (h : Wire n f) (hev : 0 ≤ n.evalSz) :
    n.serializeStr = .ok f.encode :=
  (serializeStr_iff hev).mpr ⟨h.size, (h.iff _ _).mpr ⟨Nat.le_refl _, rfl⟩⟩

/-- The key that a node writes itself. -/
def keyFields (n : KnvNode) : List PbField := if n.hasKey then [n.keyField.norm] else []

theorem body_eq (n : KnvNode) (ms cs : List PbField) : n.body ms cs = encodeAll (n.keyFields ++ ms ++ cs) := by
  rw [body, keyBytes, keyFields, encodeAll_append, encodeAll_append]
  split
  · rw [encodeAll_cons, encode_norm, encodeAll_nil, List.append_nil]
  · rfl

/-- The fields that a node is written as. -/
structure WrittenAs (n : KnvNode) (ms cs : List PbField) : Prop where
  metas : List.Forall₂ Wire (metasAfterKey n.hasKey n.metalist) ms
  children : List.Forall₂ Wire n.childlist cs
  size : n.evalValSz = (n.body ms cs).length
  iff : ∀ len out, n.serialize len false = .ok out ↔ (n.body ms cs).length ≤ len ∧ out = n.body ms cs

/-- The fields are as they are read back. -/
theorem WrittenAs.norm {n : KnvNode} {ms cs : List PbField} (h : WrittenAs n ms cs) :
    ∀ f ∈ n.keyFields ++ ms ++ cs, f.norm = f := by
  have hwire : ∀ {l : List KnvNode} {fs : List PbField}, List.Forall₂ Wire l fs → ∀ f ∈ fs, f.norm = f := by
    intro l fs hl
    induction hl with
    | nil => exact fun _ hf => absurd hf List.not_mem_nil
    | cons hx _ ih => exact fun f hf => (List.mem_cons.mp hf).elim (fun he => he ▸ hx.norm) (ih f)
  intro f hf
  rcases List.mem_append.mp hf with hf | hf
  · rcases List.mem_append.mp hf with hf | hf
    · unfold keyFields at hf
      split at hf
      · rw [List.mem_singleton.mp hf]
        exact norm_norm _
      · exact absurd hf List.not_mem_nil
    · exact hwire h.metas f hf
  · exact hwire h.children f hf

/-- None of them is longer than the node. -/
theorem WrittenAs.length {n : KnvNode} {ms cs : List PbField} (h : WrittenAs n ms cs) {f : PbField}
    (hf : f ∈ n.keyFields ++ ms ++ cs) : (f.val.str.length : ℤ) ≤ n.evalValSz := by
  have hle : f.encode.length ≤ (encodeAll (n.keyFields ++ ms ++ cs)).length := by
    obtain ⟨s, t, hst⟩ := List.append_of_mem hf
    rw [hst, encodeAll_append, encodeAll_cons, List.length_append, List.length_append]
    omega
  have hstr := length_norm_le f
  rw [h.norm f hf] at hstr
  rw [h.size, body_eq]
  omega

/-! ### The fold -/

/-- A node that was folded. -/
def folded (n : KnvNode) (bs : Bytes) : KnvNode :=
  { n with val := { str := bs }, subnodeDirty := false, expanded := false, metalist := [], childlist := [] }

theorem WrittenAs.ne_nil {n : KnvNode} {ms cs : List PbField} (h : WrittenAs n ms cs) (hf : n.isFolded = false) :
    n.keyFields ++ ms ++ cs ≠ [] := by
  intro hnil
  rw [List.append_eq_nil_iff, List.append_eq_nil_iff] at hnil
  obtain ⟨⟨hkey, rfl⟩, rfl⟩ := hnil
  have hk : n.hasKey = false := by
    cases hk : n.hasKey with
    | false => rfl
    | true => rw [keyFields, if_pos hk] at hkey; cases hkey
  have hms := List.forall₂_nil_right_iff.mp h.metas
  have hcs := List.forall₂_nil_right_iff.mp h.children
  rw [hk] at hms
  have hms' : n.metalist = [] := by
    cases hl : n.metalist with
    | nil => rfl
    | cons m l => rw [hl] at hms; cases hms
  rw [isFolded_of_nil hms' hcs] at hf
  cases hf

/-- Nodes and the fields they are written as, with the same tags. -/
theorem forall_tag {P : UInt32 → Prop} {l : List KnvNode} {fs : List PbField} (h : List.Forall₂ Wire l fs) :
    (∀ f ∈ fs, P f.tag) ↔ ∀ x ∈ l, P x.tag := by
  induction h with
  | nil => simp
  | cons hx _ ih => rw [List.forall_mem_cons, List.forall_mem_cons, ih, hx.tag]

/-- The fields can be read back if the nodes have tags that the wire can hold. -/
theorem WrittenAs.ok {n : KnvNode} {ms cs : List PbField} (h : WrittenAs n ms cs) (hn : All Accurate n)
    (hlen : n.evalValSz < 2 ^ 31) (hms : ∀ m ∈ n.metalist, m.tag ≤ ucMaxMetaNum) (hcs : ∀ c ∈ n.childlist, ChildTag c.tag) :
    (∀ f ∈ n.keyFields ++ ms ++ cs, f.Ok) ∧ (∀ f ∈ n.keyFields ++ ms, f.tag ≤ ucMaxMetaNum) ∧
      ∀ f ∈ cs, ¬f.tag ≤ ucMaxMetaNum := by
  have hmetas : ∀ f ∈ ms, f.tag ≠ 0 ∧ f.tag ≤ ucMaxMetaNum :=
    (forall_tag (P := fun t => t ≠ 0 ∧ t ≤ ucMaxMetaNum) h.metas).mpr fun x hx =>
      ⟨bne_iff_ne.mp (hn.metas x (mem_of_metasAfterKey hx)).here.valid, hms x (mem_of_metasAfterKey hx)⟩
  have hkey : ∀ f ∈ n.keyFields, f.tag = 1 := by
    intro f hf
    unfold keyFields at hf
    split at hf
    · rw [List.mem_singleton.mp hf]
      rfl
    · exact absurd hf List.not_mem_nil
  have hchildren := (forall_tag (P := ChildTag) h.children).mpr hcs
  have hone : (1 : UInt32) ≤ ucMaxMetaNum := by decide
  refine ⟨fun f hf => ⟨?_, by have := h.length hf; omega⟩, fun f hf => ?_, fun f hf => UInt32.not_le.mpr (hchildren f hf).1⟩
  · rcases List.mem_append.mp hf with hf | hf
    · rcases List.mem_append.mp hf with hf | hf
      · rw [hkey f hf]
        decide
      · obtain ⟨h0, h10⟩ := hmetas f hf
        have hpos : f.tag.toNat ≠ 0 := fun hz => h0 (UInt32.toNat_inj.mp hz)
        have hle : f.tag.toNat ≤ 10 := h10
        exact ⟨by omega, by omega⟩
    · have hlt : (10 : ℕ) < f.tag.toNat := (hchildren f hf).1
      exact ⟨by omega, (hchildren f hf).2⟩
  · rcases List.mem_append.mp hf with hf | hf
    · rw [hkey f hf]
      exact hone
    · exact (hmetas f hf).2

theorem length_encode_str (tag : UInt32) (s : Bytes) :
    s.length < (PbField.encode ⟨tag, .string, { str := s }⟩).length ∧
      (PbField.encode ⟨tag, .string, { str := s }⟩).length ≤ s.length + 20 := by
  have hpos := pbEvalVintLength_pos (pbTagWord .string tag)
  have htag := length_pbVint_le (pbTagWord .string tag)
  have hlen := length_pbVint_le (UInt64.ofNat s.length)
  rw [pbEvalVintLength_eq] at hpos
  rw [encode_string, stringHead, List.length_append, List.length_append]
  simp only
  omega

end KnvNode

end KnvProto
