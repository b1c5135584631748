import KnvProto.Tree.Cached

/-!
# What a node tells its parent of its value

A node tells its parent that its encoding is as before, or that it is dirty now
(`Marked`). A dirty node has dirty parents, so that marking may stop at the first:
a parent that hears of a node in one of its slots hides nothing either
(`Cached.hear`).
-/

namespace KnvProto

open PathEdit

namespace KnvNode

/-! ### What a node tells its parent -/

/-- A node is written as before, and no dirtier, or it is dirty now: then it was dirty, or it says so. -/
inductive Marked (n n' : KnvNode) (evs : List Ev) : Prop
  /-- As before. -/
  | same : (∀ o e d, Ev.update o e d ∉ evs) → n'.plain = n.plain → n'.tag = n.tag →
      (n'.subnodeDirty = true → n.subnodeDirty = true) → Marked n n' evs
  /-- Dirty. -/
  | dirty : n'.subnodeDirty = true → (n.subnodeDirty = true ∨ ∃ o e, Ev.update o e true ∈ evs) → Marked n n' evs

theorem metaAt_congr {n n' : KnvNode} (hms : n'.metalist = n.metalist) (hm : n'.metas = n.metas) (t : UInt32) :
    n'.metaAt t = n.metaAt t := by
  rw [metaAt, metaAt, hms, hm]

theorem hasKey_congr {n n' : KnvNode} (hk : n'.key = n.key) (hno : n'.noKey = n.noKey) : n'.hasKey = n.hasKey := by
  rw [hasKey, hasKey, hk, hno]

theorem Held.touched {n n' : KnvNode} (h : Held n) (ht : Touched n n')
    (hsize : n'.type = .string → n'.evalSz = pbEvalLength n'.tag .string 0 n'.evalValSz.toNat) : Held n' where
  size := hsize
  keyInit := ht.key ▸ h.keyInit
  keyCanon := ht.key ▸ h.keyCanon
  keyed hty hexp hk := by
    rw [metaAt_congr ht.metalist ht.metas]
    exact h.keyed (ht.type ▸ hty) (ht.expanded ▸ hexp) (hasKey_congr ht.key ht.noKey ▸ hk)
  index := ⟨by rw [ht.metalist, ht.metas]; exact h.index.inj, by rw [ht.metalist, ht.metas, ht.slots]; exact h.index.old⟩
  metas := ht.metalist ▸ h.metas
  children := ht.childlist ▸ h.children

/-- The sizes that fit each other still do. -/
def SizeFits (n : KnvNode) : Prop := n.type = .string → n.evalSz = pbEvalLength n.tag .string 0 n.evalValSz.toNat

theorem SizeFits.updateEvalSz {n : KnvNode} (h : SizeFits n) (o : ℤ) : SizeFits (n.updateEvalSz o).1 := by
  unfold KnvNode.updateEvalSz
  split
  · exact h
  · intro ht
    have ht' : n.type = .string := ht
    simp only [ht', pbEvalLength_string n.tag 0 (UInt64.ofNat (n.evalValSz + o).toNat)]

theorem SizeFits.turnEval {n : KnvNode} (h : SizeFits n) (o : ℤ) (u : Bool) : SizeFits (n.turnEval o u).1 := by
  unfold KnvNode.turnEval
  split
  · split
    · exact h
    · exact h.updateEvalSz o
  · exact h

theorem SizeFits.turnDirty {n : KnvNode} (h : SizeFits n) (u : Bool) : SizeFits (n.turnDirty u).1 := by
  unfold KnvNode.turnDirty
  split
  · split <;> exact h
  · exact h

theorem SizeFits.handle {p : KnvNode} (h : SizeFits p) (a : ℕ) (ev : Ev) : SizeFits (p.handle a ev).1 := by
  cases ev with
  | htRemove tag key => exact h
  | htPut tag key => exact h
  | update o e d =>
    rw [handle_update]
    split
    · exact (h.turnEval o e).turnDirty d
    · exact h

theorem SizeFits.handleAll (a : ℕ) (evs : List Ev) : ∀ {p : KnvNode}, SizeFits p → SizeFits (p.handleAll a evs).1 := by
  induction evs with
  | nil => exact id
  | cons ev evs ih => exact fun h => ih (h.handle a ev)

theorem SizeFits.finish {n : KnvNode} (h : SizeFits n) (o : ℤ) : SizeFits (n.finish o).node := by
  have h' : SizeFits (if 0 ≤ n.evalSz then n.updateEvalSz o else (n, 0)).1 := by
    split
    · exact h.updateEvalSz o
    · exact h
  exact h'

theorem dirty_turnEval (n : KnvNode) (o : ℤ) (u : Bool) : (n.turnEval o u).1.subnodeDirty = n.subnodeDirty := by
  unfold turnEval updateEvalSz
  split
  · split
    · rfl
    · split <;> rfl
  · rfl

/-- A turn that marks leaves the node dirty. -/
theorem dirty_turnDirty (n : KnvNode) : (n.turnDirty true).1.subnodeDirty = true := by
  unfold turnDirty
  rw [if_pos rfl]
  split
  · next h => exact h
  · rfl

/-- A node is dirty after a turn because it was, or the next turn marks, too. -/
theorem told_turnDirty {n : KnvNode} {d : Bool} (h : (n.turnDirty d).1.subnodeDirty = true) :
    n.subnodeDirty = true ∨ (n.turnDirty d).2 = true := by
  unfold turnDirty at h ⊢
  split
  · split
    · next hd => exact .inl hd
    · exact .inr rfl
  · next hd =>
    rw [if_neg hd] at h
    exact .inl h

theorem dirty_handle {a : ℕ} {p : KnvNode} {ev : Ev} (h : p.subnodeDirty = true) :
    (p.handle a ev).1.subnodeDirty = true := by
  cases ev with
  | htRemove tag key => exact h
  | htPut tag key => exact h
  | update o e d =>
    rw [handle_update]
    split
    · cases d with
      | true => exact dirty_turnDirty _
      | false => exact (dirty_turnEval p o e).trans h
    · exact h

theorem told_handle {a : ℕ} {p : KnvNode} {ev : Ev} (h : (p.handle a ev).1.subnodeDirty = true) :
    p.subnodeDirty = true ∨ ∃ o e, Ev.update o e true ∈ (p.handle a ev).2 := by
  cases ev with
  | htRemove tag key => exact .inl h
  | htPut tag key => exact .inl h
  | update o e d =>
    rw [handle_update] at h ⊢
    split
    · next hde =>
      rw [if_pos hde] at h
      refine (told_turnDirty h).imp (fun hd => (dirty_turnEval p o e).symm.trans hd) fun hd => ?_
      rw [hd]
      exact ⟨_, _, List.mem_singleton_self _⟩
    · next hde =>
      rw [if_neg hde] at h
      exact .inl h

theorem dirty_handleAll {a : ℕ} {evs : List Ev} : ∀ {p : KnvNode}, p.subnodeDirty = true →
    (p.handleAll a evs).1.subnodeDirty = true := by
  induction evs with
  | nil => exact id
  | cons ev evs ih => exact fun h => ih (dirty_handle h)

/-- A parent that hears of a change is dirty. -/
theorem marked_handleAll {a : ℕ} {evs : List Ev} : ∀ {p : KnvNode}, (∃ o e, Ev.update o e true ∈ evs) →
    (p.handleAll a evs).1.subnodeDirty = true := by
  induction evs with
  | nil => exact fun ⟨_, _, h⟩ => absurd h List.not_mem_nil
  | cons ev evs ih =>
    rintro p ⟨o, e, hmem⟩
    rcases List.mem_cons.mp hmem with rfl | hmem
    · rw [handleAll_cons]
      refine dirty_handleAll ?_
      rw [handle_update, Bool.true_or, if_pos rfl]
      exact dirty_turnDirty _
    · exact ih ⟨o, e, hmem⟩

/-- A parent is dirty after what it hears because it was, or it tells its own parent. -/
theorem told_handleAll {a : ℕ} {evs : List Ev} : ∀ {p : KnvNode}, (p.handleAll a evs).1.subnodeDirty = true →
    p.subnodeDirty = true ∨ ∃ o e, Ev.update o e true ∈ (p.handleAll a evs).2 := by
  induction evs with
  | nil => exact Or.inl
  | cons ev evs ih =>
    intro p h
    rw [handleAll_cons] at h ⊢
    rcases ih h with h | ⟨o, e, h⟩
    · exact (told_handle h).imp id fun ⟨o, e, h⟩ => ⟨o, e, List.mem_append_left _ h⟩
    · exact .inr ⟨o, e, List.mem_append_right _ h⟩

/-- A parent that hears of no change but its index is as it was. -/
theorem handleAll_of_quiet {a : ℕ} {evs : List Ev} : ∀ {p : KnvNode}, (∀ o e d, Ev.update o e d ∉ evs) →
    ∃ ht, p.handleAll a evs = ({ p with ht := ht }, []) := by
  induction evs with
  | nil =>
    intro p _
    obtain ⟨d, ms, cs⟩ := p
    exact ⟨d.ht, rfl⟩
  | cons ev evs ih =>
    intro p h
    obtain ⟨ht, hev⟩ : ∃ ht, p.handle a ev = ({ p with ht := ht }, []) := by
      cases ev with
      | htRemove tag key => exact ⟨_, rfl⟩
      | htPut tag key => exact ⟨_, rfl⟩
      | update o e d => exact absurd (List.mem_cons_self ..) (h o e d)
    obtain ⟨ht', hall⟩ := @ih { p with ht := ht } fun o e d hmem => h o e d (List.mem_cons_of_mem _ hmem)
    exact ⟨ht', by rw [handleAll_cons, hev, hall]; rfl⟩

/-- Lists that are written alike, node by node, are written alike. -/
theorem plainAll_congr {l l' : List KnvNode} (h : List.Forall₂ (fun x y => y.plain = x.plain ∧ y.tag = x.tag) l l') :
    ∀ skipKey, plainAll skipKey l' = plainAll skipKey l := by
  induction h with
  | nil => exact fun _ => rfl
  | cons hxy _ ih =>
    intro skipKey
    rw [plainAll_cons, plainAll_cons, hxy.1, hxy.2, ih]

theorem forall₂_set {R : KnvNode → KnvNode → Prop} (hR : ∀ x, R x x) {c c' : KnvNode} (hcc : R c c') :
    ∀ {l : List KnvNode} {i : ℕ}, l[i]? = some c → List.Forall₂ R l (l.set i c') := by
  intro l
  induction l with
  | nil => intro i h; simp at h
  | cons x l ih =>
    intro i h
    cases i with
    | zero =>
      simp only [List.getElem?_cons_zero, Option.some.injEq] at h
      subst h
      exact .cons hcc (List.forall₂_same.mpr fun y _ => hR y)
    | succ i => exact .cons (hR x) (ih h)

theorem isFolded_setSlot (p : KnvNode) (s : Slot) (c : KnvNode) : (p.setSlot s c).isFolded = p.isFolded := by
  have hnil : ∀ (l : List KnvNode) i, (l.set i c).isEmpty = l.isEmpty := by
    intro l i
    cases l with
    | nil => rfl
    | cons _ _ => cases i <;> rfl
  cases s <;> simp only [isFolded, setSlot_ofMeta, setSlot_ofChild, hnil]

/-- A node in which one node has been replaced by another that is written alike is written alike. -/
theorem plainVal_setSlot {p c c' : KnvNode} {s : Slot} (hc : p.slot s = some c) (hplain : c'.plain = c.plain)
    (htag : c'.tag = c.tag) : (p.setSlot s c').plainVal = p.plainVal := by
  have key : ∀ {l : List KnvNode} {i : ℕ}, l[i]? = some c → ∀ skip, plainAll skip (l.set i c') = plainAll skip l :=
    fun hi => plainAll_congr (forall₂_set (fun _ => ⟨rfl, rfl⟩) ⟨hplain, htag⟩ hi)
  have hfold := isFolded_setSlot p s c'
  cases hf : p.isFolded with
  | true =>
    rw [plainVal_of_folded hf, plainVal_of_folded (hfold.trans hf)]
    cases s <;> rfl
  | false =>
    rw [plainVal_of_not_folded hf, plainVal_of_not_folded (hfold.trans hf)]
    cases s with
    | ofMeta i =>
      have hms : (p.setSlot (.ofMeta i) c').metalist = p.metalist.set i c' := rfl
      rw [hms, key hc]
      rfl
    | ofChild i =>
      have hcs : (p.setSlot (.ofChild i) c').childlist = p.childlist.set i c' := rfl
      rw [hcs, key hc]
      rfl

/-- The nodes of a list after one has been replaced. -/
theorem mem_setSlot {p c' : KnvNode} {s : Slot} {x : KnvNode} :
    (x ∈ (p.setSlot s c').metalist → x ∈ p.metalist ∨ x = c' ∧ ∃ i, s = .ofMeta i) ∧
      (x ∈ (p.setSlot s c').childlist → x ∈ p.childlist ∨ x = c' ∧ ∃ i, s = .ofChild i) := by
  cases s with
  | ofMeta i => exact ⟨fun h => (List.mem_or_eq_of_mem_set h).imp id fun e => ⟨e, i, rfl⟩, Or.inl⟩
  | ofChild i => exact ⟨Or.inl, fun h => (List.mem_or_eq_of_mem_set h).imp id fun e => ⟨e, i, rfl⟩⟩

/-- What a parent may assume of the tag of a node that has changed. -/
structure Placed (pl : Place) (n : KnvNode) : Prop where
  isMeta : pl.isMeta = true → MetaTag n.tag ∧ n.noKey = true
  child : pl.isMeta = false → ChildTag n.tag

/-- A node with another node in one of its slots, before it hears of it. -/
theorem Held.setSlot {p c c' : KnvNode} {s : Slot} (h : Held p) (hc : p.slot s = some c) (hself : c'.self = c.self)
    (hplaced : Placed (p.place s) c') : Held (p.setSlot s c') := by
  have hne : (p.setSlot s c').metalist ≠ [] → p.metalist ≠ [] := by
    cases s with
    | ofMeta i => simp
    | ofChild i => exact id
  refine ⟨?_, ?_, ?_, ?_, ⟨?_, ?_⟩, fun m hm => ?_, fun x hx => ?_⟩
  · cases s <;> exact h.size
  · cases s <;> exact h.keyInit
  · cases s <;> exact h.keyCanon
  · intro ht hexp hk
    have hk' : p.metaAt 1 ≠ none := by cases s <;> exact h.keyed ht hexp hk
    obtain ⟨a, ha, m, hm, hma⟩ := metaAt_ne_none_iff.mp hk'
    refine metaAt_ne_none_iff.mpr ⟨a, by cases s <;> exact ha, ?_⟩
    cases s with
    | ofChild i => exact ⟨m, hm, hma⟩
    | ofMeta i =>
      -- the address is still taken
      have haddrs : (p.metalist.set i c').map (·.self) = p.metalist.map (·.self) := by
        have hi : p.metalist[i]? = some c := hc
        refine List.ext_getElem? fun j => ?_
        rw [List.map_set, List.getElem?_set, List.length_map]
        split
        · next hij =>
          subst hij
          rw [List.getElem?_map, hi, if_pos (List.getElem?_eq_some_iff.mp hi).1, hself]
          rfl
        · rfl
      have hmem : a ∈ (p.metalist.set i c').map (·.self) := haddrs ▸ List.mem_map.mpr ⟨m, hm, hma⟩
      exact List.mem_map.mp hmem
  · intro hm
    cases s <;> exact h.index.inj (hne hm)
  · intro hm
    cases s <;> exact h.index.old (hne hm)
  · rcases mem_setSlot.1 hm with hm | ⟨rfl, i, rfl⟩
    · exact h.metas m hm
    · exact hplaced.isMeta rfl
  · rcases mem_setSlot.2 hx with hx | ⟨rfl, i, rfl⟩
    · exact h.children x hx
    · exact hplaced.child rfl

/-- **A parent that hears of a node in one of its slots** hides nothing, and tells what it has become. -/
theorem Cached.hear {p c c' : KnvNode} {s : Slot} {evs : List Ev} (h : All Cached p) (hs : Shape p)
    (hc : p.slot s = some c) (hself : c'.self = c.self) (hc' : All Cached c') (hplaced : Placed (p.place s) c')
    (hmarked : Marked c c' evs) :
    All Cached ((p.setSlot s c').handleAll c'.self evs).1 ∧
      Marked p ((p.setSlot s c').handleAll c'.self evs).1 ((p.setSlot s c').handleAll c'.self evs).2 := by
  have hheld := h.here.toHeld.setSlot hc hself hplaced
  have ht := touched_handleAll c'.self evs (p.setSlot s c')
  have hheld' := hheld.touched ht (SizeFits.handleAll c'.self evs hheld.size)
  have hold : ∀ x ∈ p.metalist ++ p.childlist, x.subnodeDirty = true → p.subnodeDirty = true := h.here.dirty
  have hmem : c ∈ p.metalist ++ p.childlist := by
    cases s with
    | ofMeta i => exact List.mem_append_left _ (List.mem_of_getElem? hc)
    | ofChild i => exact List.mem_append_right _ (List.mem_of_getElem? hc)
  have hexp : p.expanded = true := by
    by_contra hexp
    obtain ⟨hms, hcs⟩ := hs.folded (by simpa using hexp)
    rw [hms, hcs] at hmem
    exact absurd hmem List.not_mem_nil
  have hlists : ∀ q : KnvNode, q.metalist = (p.setSlot s c').metalist → q.childlist = (p.setSlot s c').childlist →
      Cached q → All Cached q := by
    intro q hqm hqc hq
    refine .mk hq (fun m hm => ?_) fun x hx => ?_
    · rcases mem_setSlot.1 (hqm ▸ hm) with hm | ⟨rfl, -⟩
      · exact h.metas m hm
      · exact hc'
    · rcases mem_setSlot.2 (hqc ▸ hx) with hx | ⟨rfl, -⟩
      · exact h.children x hx
      · exact hc'
  cases hmarked with
  | same hquiet hplain htag hdirty =>
    obtain ⟨ht', hall⟩ := handleAll_of_quiet (a := c'.self) (p := p.setSlot s c') hquiet
    have hplain' := plainVal_setSlot hc hplain htag
    rw [hall] at hheld' ⊢
    obtain ⟨q, hq⟩ : ∃ q : KnvNode, q = { p.setSlot s c' with ht := ht' } := ⟨_, rfl⟩
    rw [← hq] at hheld' ⊢
    have hpv : q.plainVal = p.plainVal := by
      rw [← hplain', hq]
      generalize p.setSlot s c' = r
      obtain ⟨d, ms, cs⟩ := r
      rw [plainVal, plainVal]
      rfl
    have hfold : q.isFolded = p.isFolded := by
      rw [hq]
      exact isFolded_setSlot p s c'
    have hfields : q.tag = p.tag ∧ q.type = p.type ∧ q.val = p.val ∧ q.subnodeDirty = p.subnodeDirty ∧
        q.evalValSz = p.evalValSz ∧ q.expanded = p.expanded := by
      rw [hq]
      cases s <;> exact ⟨rfl, rfl, rfl, rfl, rfl, rfl⟩
    obtain ⟨htag', htype', hval', hdirty', hsz', hexp'⟩ := hfields
    have hclean : q.isClean = p.isClean := by rw [isClean, isClean, isBufferValid, isBufferValid, hval', hdirty']
    refine ⟨hlists q (by rw [hq]) (by rw [hq]) ⟨hheld', fun hf hcl => ?_, fun ht hf => ?_, fun ht hset => ?_, fun he => ?_,
      fun x hx hd => ?_⟩, .same (fun _ _ _ hmem => absurd hmem List.not_mem_nil) ?_ htag' fun hd => hdirty' ▸ hd⟩
    · rw [hval', hpv]
      exact h.here.clean (hfold ▸ hf) (hclean ▸ hcl)
    · rw [hval']
      exact h.here.canon (htype' ▸ ht) (hfold ▸ hf)
    · rw [hval', hsz']
      refine h.here.len (htype' ▸ ht) ?_
      rwa [Settled, hfold, hclean, hval', hexp'] at hset
    · rw [hexp', hexp] at he
      cases he
    · rw [hdirty']
      have hmem' : x ∈ p.metalist ++ p.childlist ∨ x = c' := by
        rcases List.mem_append.mp hx with hx | hx
        · exact (mem_setSlot.1 (hq ▸ hx)).imp (List.mem_append_left _) (·.1)
        · exact (mem_setSlot.2 (hq ▸ hx)).imp (List.mem_append_right _) (·.1)
      rcases hmem' with hx | rfl
      · exact hold x hx hd
      · exact hold c hmem (hdirty hd)
    · rw [plain, plain, hpv, fieldOf, fieldOf, htag', htype', hval']
  | dirty hd hup =>
    have hslotDirty : (p.setSlot s c').subnodeDirty = p.subnodeDirty := by cases s <;> rfl
    have hmark : ((p.setSlot s c').handleAll c'.self evs).1.subnodeDirty = true := by
      rcases hup with hc | hup
      · exact dirty_handleAll (hslotDirty.trans (hold c hmem hc))
      · exact marked_handleAll hup
    have htold := told_handleAll hmark
    rw [hslotDirty] at htold
    have hne : ¬((p.setSlot s c').isFolded = true ∧ (p.setSlot s c').type = .string) := by
      rintro ⟨hf, hty⟩
      rw [isFolded_setSlot] at hf
      have hty' : p.type = .string := by cases s <;> exact hty
      simp only [isFolded, hty', hexp, bne_self_eq_false, Bool.not_true, Bool.or_self, Bool.false_or, Bool.and_eq_true,
        List.isEmpty_iff] at hf
      rw [hf.1, hf.2] at hmem
      exact absurd hmem List.not_mem_nil
    generalize (p.setSlot s c').handleAll c'.self evs = r at *
    have hfold : r.1.isFolded = (p.setSlot s c').isFolded := by
      rw [isFolded, isFolded, ht.type, ht.expanded, ht.metalist, ht.childlist]
    have hclean : r.1.isClean = false := by rw [isClean, hmark, Bool.not_true, Bool.and_false]
    refine ⟨hlists r.1 ht.metalist ht.childlist ⟨hheld', fun _ hcl => ?_, fun hty hf => ?_, fun hty hset => ?_, fun he => ?_,
      fun _ _ _ => hmark⟩, .dirty hmark htold⟩
    · rw [hclean] at hcl
      cases hcl
    · exact absurd ⟨hfold ▸ hf, ht.type ▸ hty⟩ hne
    · rcases hset with ⟨hf, -⟩ | ⟨-, hcl⟩
      · exact absurd ⟨hfold ▸ hf, ht.type ▸ hty⟩ hne
      · rw [hclean] at hcl
        cases hcl
    · have hexp' : (p.setSlot s c').expanded = p.expanded := by cases s <;> rfl
      rw [ht.expanded, hexp', hexp] at he
      cases he

end KnvNode

end KnvProto
