import KnvProto.Tree.Remerged
import KnvProto.Tree.Order
import KnvProto.Tree.OwnRequest

/-!
# What a query gathers

`InnerGetSubTree` makes its results as it goes: copies of whole nodes, and nodes with a
key, metas and children, which are made when there is something to be put into them.
Their sizes are summed up on the way, and the size of the whole is set at the end.

`Gathering` says what has been put into a result so far. **A result is written as its
key, its metas and its children** (`Holding.wire`), when it is complete.
-/

namespace KnvProto

open KnvHt Varint

namespace KnvNode

variable {n c o src : KnvNode} {f g : PbField} {k : Bool} {ms cs : List PbField} {t : UInt32} {q : KnvKey}

/-! ### Copies -/

/-- A node that has just been parsed is written as its field, also with another key. -/
theorem wire_ofField (hg : Genuine g) (k : Bool) (bs : Bytes) : Wire ((ofField (sized g) k).putKey bs) g := by
  have hput : ∀ m : KnvNode, m = (ofField (sized g) k).putKey bs → m.tag = g.tag ∧ m.type = g.type ∧ m.val = g.val ∧
      m.isFolded = true ∧ m.evalSz = (g.encode.length : ℕ) ∧ (g.type = .string → m.evalValSz = g.val.str.length) := by
    intro m hm
    have hpos := length_encode_pos' g
    have hfold : (ofField (sized g) k).isFolded = true := isFolded_initNode ..
    have hsz : (ofField (sized g) k).evalSz = (g.encode.length : ℕ) := by
      show ((if 0 < g.encode.length then g.encode.length else _ : ℕ) : ℤ) = _
      rw [if_pos hpos]
    have hval : (ofField (sized g) k).val = g.val := pick_of_norm hg.norm
    have hvsz : g.type = .string → (ofField (sized g) k).evalValSz = g.val.str.length := fun ht => by
      simp only [ofField, sized, initNode, if_true, ht]
      rfl
    rw [hm, putKey]
    split
    · exact ⟨rfl, rfl, hval, hfold, hsz, hvsz⟩
    · exact ⟨rfl, rfl, hval, hfold, hsz, hvsz⟩
  obtain ⟨htag, htype, hval, hfold, hsz, hvsz⟩ := hput _ rfl
  have hvalid : ((ofField (sized g) k).putKey bs).isValid = true := by
    rw [isValid, htag]
    exact (show FromField k g ((ofField (sized g) k).at' 0) from ⟨0, rfl⟩).valid hg.ok
  have hacc : Accurate ((ofField (sized g) k).putKey bs) := by
    refine ⟨hvalid, fun _ => ⟨?_, fun ht => ?_⟩, fun hf => ?_⟩
    · rw [hsz, htag, htype, hval, pbEvalFieldLength_eq]
    · rw [hvsz (htype.symm.trans ht), hval]
    · rw [hfold] at hf
      cases hf
  have hwire := wire_of_value hacc (by rw [hfold, Bool.true_or])
  rwa [htag, htype, hval, show PbField.norm ⟨g.tag, g.type, g.val⟩ = g from hg.norm] at hwire

/-- **A copy of a whole node is written as its field.** -/
theorem FromField.dupWithKey (h : FromField k g n) (hg : Genuine g) : ∃ o, n.dupWithKey = .ok o ∧ Wire o g := by
  rw [KnvNode.dupWithKey, h.innerDuplicate hg true]
  exact ⟨_, rfl, wire_ofField hg true _⟩

theorem Wire.at' (h : Wire n f) (a : ℕ) : Wire (n.at' a) f :=
  ⟨h.tag, h.type, h.norm, h.size, fun len out => by rw [serialize_at', h.iff]⟩

/-! ### Results -/

/-- A result with the tag `t` and the key `q`, and what has been put into it so far. -/
structure Holding (t : UInt32) (q : KnvKey) (ms cs : List PbField) (o : KnvNode) : Prop where
  tag : o.tag = t
  type : o.type = .string
  str : o.val.str = []
  key : o.key = q
  keyed : o.noKey = false
  expanded : o.expanded = true
  metas : List.Forall₂ Wire o.metalist ms
  children : List.Forall₂ Wire o.childlist cs
  size : o.evalValSz = (o.keyLength + (encodeAll ms).length + (encodeAll cs).length : ℕ)
  fresh : o.metalist ≠ [] → ∀ t, t ∉ ms.map (·.tag) → o.metas t = none

/-- A result that may not have been made yet. -/
def Gathering (t : UInt32) (q : KnvKey) (ms cs : List PbField) (res : Option KnvNode) : Prop :=
  (res = none ∧ ms = [] ∧ cs = []) ∨ ∃ o, res = some o ∧ Holding t q ms cs o ∧ ¬(ms = [] ∧ cs = [])

theorem holding_dupEmptyNode (ht : src.type = .string) : Holding src.tag src.key [] [] src.dupEmptyNode := by
  refine ⟨rfl, ht, rfl, rfl, ?_, rfl, .nil, .nil, ?_, fun h => absurd rfl h⟩
  · show (false || src.type != .string) = false
    rw [ht]
    rfl
  · have hno : src.dupEmptyNode.noKey = false := by
      show (false || src.type != .string) = false
      rw [ht]
      rfl
    rw [keyLength, hasKey, hno]
    show (if src.key.bytes = [] then 0 else _ : ℤ) = _
    by_cases hk : src.key.bytes = []
    · rw [if_pos hk, if_neg (by simp [dupEmptyNode, hk])]
      rfl
    · rw [if_neg hk, if_pos (by simp [dupEmptyNode, hk])]
      rfl

theorem Gathering.holding {res : Option KnvNode} (h : Gathering t q ms cs res) (ht : src.type = .string)
    (htag : src.tag = t) (hkey : src.key = q) : Holding t q ms cs (res.getD src.dupEmptyNode) := by
  rcases h with ⟨rfl, rfl, rfl⟩ | ⟨o, rfl, ho, -⟩
  · rw [← htag, ← hkey]
    exact holding_dupEmptyNode ht
  · exact ho

theorem forall₂_concat {l : List KnvNode} (h : List.Forall₂ Wire l ms) (hc : Wire c f) :
    List.Forall₂ Wire (l ++ [c]) (ms ++ [f]) := by
  induction h with
  | nil => exact .cons hc .nil
  | cons hx _ ih => exact .cons hx ih

/-- A child is put at the end. -/
theorem Holding.linkChild (h : Holding t q ms cs o) (hc : Wire c f) : Holding t q ms (cs ++ [f])
    { o.linkChild c true with evalValSz := (o.linkChild c true).evalValSz + c.evalSz } := by
  refine ⟨h.tag, h.type, h.str, h.key, h.keyed, h.expanded, h.metas, forall₂_concat h.children (hc.at' _), ?_, h.fresh⟩
  show o.evalValSz + c.evalSz = ((o.keyLength + (encodeAll ms).length + (encodeAll (cs ++ [f])).length : ℕ) : ℤ)
  rw [h.size, hc.size, encodeAll_append, encodeAll_cons, encodeAll_nil, List.append_nil, List.length_append]
  omega

theorem Gathering.addTo {res : Option KnvNode} (h : Gathering t q ms cs res) (ht : src.type = .string)
    (htag : src.tag = t) (hkey : src.key = q) (hc : Wire c f) : Gathering t q ms (cs ++ [f]) (some (addTo src res c)) := by
  rw [addTo_eq (by rw [hc.size]; exact Int.natCast_nonneg _)]
  exact .inr ⟨_, rfl, (h.holding ht htag hkey).linkChild hc, fun hnil => by simpa using hnil.2⟩

/-- A copy of a child is put at the end. -/
theorem Gathering.copyTo {res : Option KnvNode} (h : Gathering t q ms cs res) (ht : src.type = .string)
    (htag : src.tag = t) (hkey : src.key = q) (hs : FromField k g c) (hg : Genuine g) :
    (innerInsertChild c false false true (res.getD src.dupEmptyNode)).ret = .ok 0 ∧
      Gathering t q ms (cs ++ [g]) (some (innerInsertChild c false false true (res.getD src.dupEmptyNode)).node) := by
  have hwire : Wire (ofField (sized g) true) g := wire_ofField hg true []
  have heval : (ofField (sized g) true).evaluateSize = ofField (sized g) true :=
    evaluateSize_of_nonneg (by rw [hwire.size]; exact Int.natCast_nonneg _)
  have hdone : innerInsertChild c false false true (res.getD src.dupEmptyNode) =
      ⟨{ (res.getD src.dupEmptyNode).linkChild (ofField (sized g) true) true with
        evalValSz := ((res.getD src.dupEmptyNode).linkChild (ofField (sized g) true) true).evalValSz +
          (ofField (sized g) true).evalSz }, [], .ok 0⟩ := by
    unfold innerInsertChild
    simp only [Bool.not_false, hs.innerDuplicate hg true, heval, Bool.true_or, if_true, Bool.false_eq_true, if_false]
  rw [hdone]
  exact ⟨rfl, .inr ⟨_, rfl, (h.holding ht htag hkey).linkChild hwire, fun hnil => by simpa using hnil.2⟩⟩

/-- A meta is put at the end. -/
theorem Holding.setMeta (h : Holding t q ms [] o) (ht : t ≠ 0) (hg : Genuine g) (hmax : g.tag ≤ ucMaxMetaNum)
    (h1 : g.tag ≠ 1) (hnew : g.tag ∉ ms.map (·.tag)) :
    Holding t q (ms ++ [g]) [] (setMetaInner g.tag g.type (some g.val) false {} o).node := by
  have hv : o.isValid = true := by
    rw [isValid, h.tag]
    exact bne_iff_ne.mpr ht
  have hnone : o.metaAt g.tag = none := by
    unfold metaAt
    split
    · rfl
    · next hne => rw [h.fresh (by simpa using hne) _ hnew]; rfl
  have hpick : g.val.pick g.type = g.val := pick_of_norm hg.norm
  have hdone : (setMetaInner g.tag g.type (some g.val) false {} o).node =
      { o.addMetaNode g.tag g.type (some g.val) with
        evalValSz := (o.addMetaNode g.tag g.type (some g.val)).evalValSz +
          ((pbEvalFieldLength g.tag g.type g.val : ℕ) - 0) } := by
    unfold setMetaInner
    rw [if_neg (by simp [hv]), if_neg (not_not_intro h.type), if_neg (UInt32.not_lt.mpr hmax),
      innerExpand_of_expanded h.expanded]
    simp only [hnone, Bool.not_false, if_true, hpick]
  have hmeta : Wire (initNode g.tag g.type (some g.val) true 0 true) g := by
    have hsz : (initNode g.tag g.type (some g.val) true 0 true) = ofField (sized g) true := by
      have hlen : pbEvalFieldLength g.tag g.type g.val = g.encode.length := pbEvalFieldLength_eq ..
      unfold ofField sized initNode
      simp only [hpick, if_true, Nat.lt_irrefl, if_false, if_pos (length_encode_pos' g)]
      rw [show pbEvalFieldLength g.tag g.type g.val = g.encode.length from hlen]
    rw [hsz]
    exact wire_ofField hg true []
  rw [hdone]
  have hlist : (o.addMetaNode g.tag g.type (some g.val)).metalist =
      o.metalist ++ [(initNode g.tag g.type (some g.val) true 0 true).at' o.slots] := if_neg h1
  refine ⟨h.tag, h.type, h.str, h.key, h.keyed, h.expanded, ?_, h.children, ?_, fun _ u hu => ?_⟩
  · show List.Forall₂ Wire (o.addMetaNode g.tag g.type (some g.val)).metalist (ms ++ [g])
    rw [hlist]
    exact forall₂_concat h.metas (hmeta.at' _)
  · show o.evalValSz + ((pbEvalFieldLength g.tag g.type g.val : ℕ) - 0) =
      ((o.keyLength + (encodeAll (ms ++ [g])).length + (encodeAll []).length : ℕ) : ℤ)
    rw [h.size, show pbEvalFieldLength g.tag g.type g.val = g.encode.length from pbEvalFieldLength_eq .., encodeAll_append,
      encodeAll_cons, encodeAll_nil, List.append_nil, List.length_append]
    push_cast
    omega
  · rw [List.map_append, List.mem_append, not_or] at hu
    have hne : u ≠ g.tag := fun he => hu.2 (by simp [he])
    show (if u = g.tag then _ else _) = none
    rw [if_neg hne]
    split
    · rfl
    · next hem => exact h.fresh (by simpa using hem) u hu.1

/-- **A result is written as the key, the metas and the children.** -/
theorem Holding.wire (h : Holding t q ms cs o) (ht : t ≠ 0) (hms : ∀ f ∈ ms, f.tag ≠ 1) (hne : ¬(ms = [] ∧ cs = [])) :
    Wire (closeUp o) ⟨t, .string, { str := o.keyBytes ++ encodeAll ms ++ encodeAll cs }⟩ := by
  have hfold : ((closeUp o).isFolded || (closeUp o).isClean) = false := by
    have hlists : ¬(o.childlist.isEmpty = true ∧ o.metalist.isEmpty = true) := by
      intro hnil
      have hcs : o.childlist = [] := List.isEmpty_iff.mp hnil.1
      have hml : o.metalist = [] := List.isEmpty_iff.mp hnil.2
      have h1 := h.children
      have h2 := h.metas
      rw [hcs, List.forall₂_nil_left_iff] at h1
      rw [hml, List.forall₂_nil_left_iff] at h2
      exact hne ⟨h2, h1⟩
    have hc : (closeUp o).isClean = false := by
      show (o.val.str != [] && _) = false
      rw [h.str]
      rfl
    rw [hc, Bool.or_false]
    show (o.type != .string || !o.expanded || (o.childlist.isEmpty && o.metalist.isEmpty)) = false
    rw [h.type, h.expanded]
    simpa using hlists
  have hafter : metasAfterKey (closeUp o).hasKey (closeUp o).metalist = o.metalist := by
    show metasAfterKey o.hasKey o.metalist = o.metalist
    cases hl : o.metalist with
    | nil => rfl
    | cons m l =>
      rw [metasAfterKey, if_neg]
      rw [Bool.and_eq_true, beq_iff_eq]
      rintro ⟨-, h1⟩
      have hw := h.metas
      rw [hl] at hw
      cases hw with
      | @cons _ f _ ms hw _ => exact hms f (List.mem_cons_self ..) (hw.tag.trans h1)
  have hacc : Accurate (closeUp o) := by
    refine ⟨?_, fun hf => ?_, fun _ => ⟨?_, ?_⟩⟩
    · show (o.tag != 0) = true
      rw [h.tag]
      exact bne_iff_ne.mpr ht
    · rw [hfold] at hf
      cases hf
    · rw [hafter]
      show o.evalValSz = o.keyLength + (o.metalist.map (·.evalSz)).sum + (o.childlist.map (·.evalSz)).sum
      rw [sum_evalSz h.metas, sum_evalSz h.children, h.size]
      push_cast
      rfl
    · rfl
  have hmetas : List.Forall₂ Wire (metasAfterKey (closeUp o).hasKey (closeUp o).metalist) ms := by
    rw [hafter]
    exact h.metas
  have hwire := wire_again hacc (Int.natCast_nonneg _) hfold hmetas h.children
  rwa [show (closeUp o).tag = t from h.tag] at hwire

end KnvNode

end KnvProto
