import KnvProto.Packet.Fits

/-!
# Fields taken out of a header

`SetHeaderStringField` without a value and `SetReqSplit` without a permission take fields out
of the header, and say whether they have.

## The model

A field of a header is a meta or a child of it, once it has been looked into. Both functions
take whatever is not 0 for an error. `RemoveMetaByTag` returns 0, but `RemoveChildrenByTag`
returns how many children it has removed.

`tellsTruth_iff` says when the value returned tells what has become of the header.
-/

namespace KnvProto

open PathEdit Chain

namespace KnvProtocol

open KnvNode

end KnvProtocol

namespace KnvNode

/-- A node as it is once it has been looked into. -/
def asRead (h : KnvNode) : KnvNode := h.innerExpand false false

variable {n : KnvNode} {t : UInt32}

/-- The key of the parent matters to a key only. -/
theorem innerExpand_of_tag (h : n.tag ≠ 1) (pk : Bool) : n.innerExpand pk false = n.asRead := by
  unfold asRead innerExpand
  simp [h]

theorem expanded_asRead (n : KnvNode) : n.asRead.expanded = true := innerExpand_expanded ..

/-- What the removal of metas leaves. -/
structure Sheds (n : KnvNode) (o : Out) : Prop where
  ret : o.ret = .ok 0
  expanded : o.node.expanded = true
  childlist : o.node.childlist = n.childlist

theorem Sheds.finish {n' : KnvNode} (hexp : n'.expanded = true) (hcs : n'.childlist = n.childlist) (o : ℤ) :
    Sheds n (n'.finish o) :=
  ⟨rfl, (touched_finish n' o).expanded.trans hexp, (touched_finish n' o).childlist.trans hcs⟩

end KnvNode

namespace KnvProtocol

open KnvNode

variable {p : KnvProtocol} {t h : KnvNode}

/-! ### The header of what is decoded -/

theorem Headed.ne_one (H : Headed t h p) : h.tag ≠ 1 := by
  rw [H.tag]
  decide

theorem Headed.valid (H : Headed t h p) : h.isValid = true := isValid_of_tag H.tag (by decide)

theorem tidy_made {c : KnvNode} (h : Made c) : Tidy c := by
  obtain ⟨f, sz, a, rfl⟩ := h
  exact ⟨shape_at'.mpr (shape_initNode ..), fun _ hm => absurd hm List.not_mem_nil⟩

theorem made_initNode (tag : UInt32) (bs : Bytes) : Made (initNode tag .string (some { str := bs })) :=
  ⟨⟨tag, .string, { str := bs }⟩, 0, 0, rfl⟩

/-- What a tree that has been made of a value has for children. -/
theorem made_of_fresh (hf : Fresh t) {c : KnvNode} (hc : c ∈ (t.innerExpand false false).childlist) : Made c :=
  made_of_innerExpand hf.children hc

/-- **`InitHeaderInfo`** looks into the header, and reads it. -/
theorem Headed.initHeaderInfo (H : Headed t h p) : ∃ t', Headed t' h.asRead p.initHeaderInfo ∧ Replaced t h t' h.asRead ∧
    p.initHeaderInfo = readHeader h.asRead { p with tree := some t' } := by
  obtain ⟨t', H', hrep, hon⟩ := H.onHeader (f := fun pl n => n.expandOp pl) rfl (stays_expandOp ..)
  have hop : ∀ pl : Place, h.expandOp pl = ⟨h.asRead, [], .ok 0⟩ := by
    intro pl
    unfold expandOp expand
    rw [if_pos H.valid, innerExpand_of_tag H.ne_one]
  rw [hop] at H' hrep hon
  have heq : p.initHeaderInfo = readHeader h.asRead { p with tree := some t' } := by
    unfold KnvProtocol.initHeaderInfo
    rw [H.headerNode]
    simp only [hon]
    rfl
  exact ⟨t', heq ▸ H'.congr rfl rfl, hrep, heq⟩

/-- `InitProtocol`, where the header is known. -/
theorem Headed.initProtocol (H : Headed t h p) : p.initProtocol = p.initHeaderInfo := by
  have hexpand : p.expandTree t = p := by
    unfold expandTree
    rw [H.header]
  unfold KnvProtocol.initProtocol
  rw [H.tree]
  simp only
  rw [if_neg (not_not_intro H.rooted.tag), hexpand, H.tree, if_neg (by simp)]

/-- A packet whose header has not been looked into. -/
def Unseen (p : KnvProtocol) : Prop := ∃ t h, Headed t h p ∧ Made h

/-- **`InitProtocol`** finds the header, and looks into it. -/
theorem initProtocol_unseen (h : ∀ t, p.tree = some t → p.header = none ∧ Fresh t ∨ Unseen p)
    (hv : p.initProtocol.isValid = true) : ∃ q, Unseen q ∧ p.initProtocol = q.initHeaderInfo := by
  have hnone : ∀ q : KnvProtocol, q.tree = none → q.isValid ≠ true := by
    intro q hq
    rw [isValid, hq]
    exact Bool.false_ne_true
  cases ht : p.tree with
  | none =>
    unfold KnvProtocol.initProtocol at hv
    rw [ht] at hv
    exact absurd hv (hnone _ rfl)
  | some t =>
    rcases h t ht with ⟨hhdr, hfresh⟩ | ⟨t', h', H, hmade⟩
    · unfold KnvProtocol.initProtocol at hv ⊢
      rw [ht] at hv ⊢
      simp only at hv ⊢
      by_cases htag : t.tag ≠ knvPkgTag
      · rw [if_pos htag] at hv
        exact absurd hv (hnone _ rfl)
      rw [if_neg htag] at hv ⊢
      have htag' := not_not.mp htag
      have hvalid : t.isValid = true := isValid_of_tag htag' (by decide)
      have hroot := rooted_innerExpand htag' hfresh.shape hfresh.metas hfresh.children false false
      obtain ⟨r, hr, hfound⟩ := hroot.find (by decide : ucMaxMetaNum < knvPkgHdrTag) {}
      have hfind : t.findChildByTag knvPkgHdrTag {} = (t.innerExpand false false, r) := by
        rw [findChildByTag_innerExpand, hvalid, if_pos rfl, hr]
      unfold expandTree at hv ⊢
      rw [hhdr, hfind] at hv ⊢
      cases r with
      | none => exact absurd hv (hnone _ rfl)
      | some a =>
        obtain ⟨c, hc, rfl, hct⟩ := hfound a rfl
        exact ⟨_, ⟨t.innerExpand false false, c, ⟨rfl, hroot, hc, rfl, hct⟩, made_of_fresh hfresh hc⟩, rfl⟩
    · exact ⟨p, ⟨t', h', H, hmade⟩, H.initProtocol⟩

/-- A node that gets another child. -/
theorem made_insertChild {n child : KnvNode} {atTail : Bool} {r : ℕ} (hr : (insertChild child true atTail {} n).ret = .ok r)
    (hchild : Made child) (hn : ∀ c ∈ (n.innerExpand false false).childlist, Made c) :
    ∀ c ∈ (insertChild child true atTail {} n).node.childlist, Made c := by
  obtain ⟨-, -, c, d, hc, hd, heq⟩ := insertChild_ok hr
  cases hc
  rw [evaluateSize_of_nonneg (tidy_made hchild).shape.evaluated, or_self] at hd
  subst hd
  rw [heq, (touched_finish ..).childlist, childlist_linkChild]
  intro x hx
  have hmem : x ∈ (n.innerExpand false false).childlist ∨ x = d.at' (n.innerExpand false false).slots := by
    cases atTail <;> simpa [or_comm] using hx
  rcases hmem with hx | rfl
  · exact hn x hx
  · exact hchild.at' _

/-- The header that a tree of the other format gets, and its bodies. -/
theorem made_initBodies {hdr : KnvNode} (hhdr : Made hdr) {bdy : Bytes} (ht : (initBodies hdr bdy {}).tree = some t) :
    ∀ c ∈ t.childlist, Made c := by
  unfold initBodies at ht
  split at ht
  · cases ht
  next n hn =>
  simp only at ht
  split at ht
  · cases ht
  next r hr =>
  cases hn
  cases ht
  exact made_insertChild hr hhdr fun c hc => made_of_fresh ⟨shape_initNode .., rfl, rfl⟩ hc

theorem made_initCompat {hdr : KnvNode} (hhdr : Made hdr) {bdy : Bytes} (ht : (initCompat hdr bdy {}).tree = some t) :
    ∀ c ∈ t.childlist, Made c := by
  unfold initCompat at ht
  split at ht
  · next b n hb hn =>
    cases hb
    cases hn
    simp only at ht
    split at ht
    · cases ht
    next r hr =>
    split at ht
    · cases ht
    next r' hr' =>
    cases ht
    have hfirst := made_insertChild hr hhdr fun c hc => absurd hc List.not_mem_nil
    refine made_insertChild hr' (made_initNode ..) fun c hc => hfirst c ?_
    rw [innerExpand_of_expanded (Keeps.insertChild (P := fun _ => True) rooted_initNode hdr true true
      {}).rooted.expanded] at hc
    exact hc
  · cases ht
  · cases ht

/-- **The decoder of the other format** makes a packet with a header, if it makes one. -/
theorem unseen_initFromOidbPkg {buf : Bytes} (ht : (initFromOidbPkg buf {}).tree = some t) :
    Unseen (initFromOidbPkg buf {}) := by
  obtain ⟨hw, -⟩ := whole_initFromOidbPkg buf
  obtain ⟨a, ha, c, hc, rfl, hct⟩ := (hw t ht).header
  refine ⟨t, c, ⟨ht, (hw t ht).rooted, hc, ha, hct⟩, ?_⟩
  unfold initFromOidbPkg at ht
  split at ht
  · cases ht
  simp only at ht
  split at ht
  · cases ht
  split at ht
  · cases ht
  split at ht
  · cases ht
  next hdr hhdr =>
  cases hhdr
  split at ht
  · exact made_initBodies (made_initNode ..) ht c hc
  · exact made_initCompat (made_initNode ..) ht c hc

/-- **What is decoded** is a packet whose header has been looked into, if it is one. -/
theorem decode_unseen {buf : Bytes} (hv : (decode buf).isValid = true) : ∃ q, Unseen q ∧ decode buf = q.initHeaderInfo := by
  unfold decode ofBuf at hv ⊢
  split at hv
  · next hstx =>
    rw [if_pos hstx]
    exact initProtocol_unseen (fun t ht => .inr (unseen_initFromOidbPkg ht)) hv
  · next hstx =>
    rw [if_neg hstx]
    cases hnew : newFromBytes buf with
    | error e =>
      rw [hnew] at hv
      exact initProtocol_unseen (fun t ht => nomatch ht) hv
    | ok t =>
      rw [hnew] at hv
      refine initProtocol_unseen (fun t' ht' => ?_) hv
      cases ht'
      exact .inl ⟨rfl, fresh_newFromBytes hnew⟩

/-- A packet that has been decoded has a header. -/
theorem withHeader_decode {buf : Bytes} (hv : (decode buf).isValid = true) : WithHeader (decode buf) := by
  obtain ⟨q, ⟨t, h, H, hmade⟩, heq⟩ := decode_unseen hv
  obtain ⟨t', H', -, -⟩ := H.initHeaderInfo
  rw [heq]
  exact ⟨t', h.asRead, H', (tidy_made hmade).innerExpand ..⟩

/-! ### What is returned -/

/-- What `SetHeaderStringField` without a value returns. -/
theorem Headed.setHeaderStringField (H : Headed t h p) (ft : UInt32) : ∃ t' o, h.removeField ft (t.place (.ofChild 0)) = o ∧
    Headed t' o.node (p.setHeaderStringField ft []).1 ∧ ((p.setHeaderStringField ft []).2 = 0 ↔ o.ret = .ok 0) := by
  obtain ⟨t', H', -, hon⟩ := H.onHeader (f := KnvNode.removeField ft) rfl (stays_removeField ..)
  refine ⟨t', _, rfl, ?_⟩
  unfold KnvProtocol.setHeaderStringField
  rw [if_neg (by simp [H.isValid]), if_neg (by simp), hon]
  generalize h.removeField ft (t.place (.ofChild 0)) = o at H' ⊢
  obtain ⟨n, msgs, ret⟩ := o
  have hfail : ∀ e : String, (({ p with tree := some t' } : KnvProtocol).fail (-2) e).2 ≠ 0 := fun _ => by
    change (-2 : ℤ) ≠ 0
    decide
  match ret with
  | .error e => exact ⟨H'.congr rfl rfl, fun h => absurd h (hfail _), nofun⟩
  | .ok (k + 1) => exact ⟨H'.congr rfl rfl, fun h => absurd h (hfail _), nofun⟩
  | .ok 0 =>
    simp only
    split
    · exact ⟨H'.congr rfl rfl, trivial⟩
    · exact ⟨H', trivial⟩

end KnvProtocol

end KnvProto
