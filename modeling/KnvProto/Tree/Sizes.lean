import Mathlib.Data.List.Nodup
import KnvProto.Tree.Plain

/-!
# Incremental sizes

No operation recomputes a size: a function that changes a node pushes the
difference up, and it changes at every level with the length of the length.

## The model

`SizedBy d n` says that `eval_val_sz` of `n` is `d` short of what is below `n` by
the cached sizes of the metas and children, and `eval_sz` fits `eval_val_sz`. An
operation is short of what it adds until its `finish`, a parent of what its child
has grown until it has taken the child's messages (`SizedBy.handleAll`); in
between calls every node is short of nothing (`Sized`).

A node with a key has it twice, in `key` and as its first meta, and the sum over
the metas counts it once (`Sized.exact`).
-/

namespace KnvProto

open PathEdit

/-- The change of size that a message tells. -/
def Ev.offset : Ev → ℤ
  | update o e _ => if e then o else 0
  | htRemove _ _ => 0
  | htPut _ _ => 0

@[simp] theorem offset_htRemove (tag : UInt32) (key : Bytes) : (Ev.htRemove tag key).offset = 0 := rfl

@[simp] theorem offset_htPut (tag : UInt32) (key : Bytes) : (Ev.htPut tag key).offset = 0 := rfl

/-- The change of size that messages tell together. -/
def offsets (evs : List Ev) : ℤ := (evs.map Ev.offset).sum

@[simp] theorem offsets_nil : offsets [] = 0 := rfl

@[simp] theorem offsets_cons (ev : Ev) (evs : List Ev) : offsets (ev :: evs) = ev.offset + offsets evs := by
  simp [offsets]

@[simp] theorem offsets_append (evs evs' : List Ev) : offsets (evs ++ evs') = offsets evs + offsets evs' := by
  simp [offsets]

namespace KnvNode

@[simp] theorem offset_updateParent (o : ℤ) : (updateParent o).offset = o := by
  simp only [updateParent, Ev.offset]
  split
  · rfl
  · next h => simpa using (Eq.symm (by simpa using h : o = 0))

/-- The cached sizes of the metas and children, added up. -/
def sumBelow (n : KnvNode) : ℤ := (n.metalist.map (·.evalSz)).sum + (n.childlist.map (·.evalSz)).sum

/-- The length of the value, if it is a string. -/
def strLen (n : KnvNode) : ℤ := if n.type = .string then n.val.str.length else 0

/-- The meta that holds a key. -/
structure KeyMeta (k : KnvKey) (m : KnvNode) : Prop where
  tag : m.tag = 1
  type : m.type = k.type
  val : m.val = k.getValue.pick k.type
  metalist : m.metalist = []
  childlist : m.childlist = []

/-- The cached sizes of `n` are right but for `d` bytes that `eval_val_sz` is short of. -/
structure SizedBy (d : ℤ) (n : KnvNode) : Prop where
  valid : n.isValid = true
  val : n.evalValSz + d = n.strLen + n.sumBelow
  sz : n.evalSz = pbEvalLength n.tag n.type n.val.i64 n.evalValSz.toNat
  /-- A node with nodes below it keeps no value. -/
  inner : n.metalist ≠ [] ∨ n.childlist ≠ [] → n.type = .string ∧ n.val.str = []
  /-- A key is the first meta, too. -/
  key : n.hasKey = true → n.type = .string → n.val.str = [] → ∃ m ms, n.metalist = m :: ms ∧ KeyMeta n.key m
  /-- `metas[]` points to metas of its tags. -/
  metas : ∀ t a, n.metas t = some a → n.metalist = [] ∨ ∃ m ∈ n.metalist, m.self = a ∧ m.tag = t
  /-- Metas have no key. -/
  noKey : ∀ m ∈ n.metalist, m.noKey = true

/-- The cached sizes of `n` are right. -/
abbrev Sized : KnvNode → Prop := SizedBy 0

/-! ### The recomputed sizes -/

theorem keyMeta_fullSize {n m : KnvNode} (h : KeyMeta n.key m) (hk : n.hasKey = true) : m.fullSize = n.keyLength := by
  have hf : m.isFolded = true := by simp [isFolded, h.metalist, h.childlist]
  rw [fullSize, valSize_of_folded hf, keyLength, if_pos hk, pbEvalFieldLength, h.tag, h.type, h.val, PbVal.pick]
  by_cases ht : n.key.type = .string
  · rw [if_pos ht, if_pos ht, ht]
    rfl
  · rw [if_neg ht, if_neg ht]
    exact pbEvalLength_of_ne ht ..

theorem sum_fullSize {l : List KnvNode} (h : ∀ x ∈ l, x.evalSz = x.fullSize) :
    (l.map (·.evalSz)).sum = ((l.map fullSize).sum : ℕ) := by
  induction l with
  | nil => rfl
  | cons x l ih =>
    simp only [List.map_cons, List.sum_cons]
    rw [h x (List.mem_cons_self ..), ih fun y hy => h y (List.mem_cons_of_mem _ hy)]
    omega

/-- **Where the cached sizes add up, they are the sizes recomputed bottom-up.** -/
theorem sizes_eq {n : KnvNode} (h : All Sized n) (hs : Shaped n) : n.evalSz = n.fullSize ∧ n.evalValSz = n.valSize := by
  induction n using induct with
  | h n hms hcs =>
    have hn := h.here
    have hmetas := sum_fullSize fun x hx => (hms x hx (h.metas x hx) (hs.metas x hx)).1
    have hchildren := sum_fullSize fun x hx => (hcs x hx (h.children x hx) (hs.children x hx)).1
    have hval : n.evalValSz = n.valSize := by
      have hsum := hn.val
      rw [Int.add_zero, sumBelow, hmetas, hchildren] at hsum
      cases hf : n.isFolded with
      | true =>
        have hnil : n.metalist = [] ∧ n.childlist = [] := by
          by_contra hcon
          have hne : n.metalist ≠ [] ∨ n.childlist ≠ [] := by
            rw [← not_and_or]
            exact hcon
          have hexp : n.expanded = true := by
            by_contra hexp
            exact hcon (hs.here.folded (by simpa using hexp))
          simp only [isFolded, (hn.inner hne).1, hexp] at hf
          exact hcon (by simpa [and_comm] using hf)
        rw [valSize_of_folded hf, hsum, hnil.1, hnil.2, strLen]
        split <;> simp
      | false =>
        have hne : n.metalist ≠ [] ∨ n.childlist ≠ [] := by
          by_contra hcon
          rw [not_or, not_not, not_not] at hcon
          simp [isFolded, hcon.1, hcon.2] at hf
        have hstr : n.strLen = 0 := by simp [strLen, (hn.inner hne).2]
        have hkey : n.keyLength + sizeAll n.hasKey n.metalist = (n.metalist.map fullSize).sum := by
          cases hk : n.hasKey with
          | true =>
            obtain ⟨m, ms, hmm, hm⟩ := hn.key hk (hn.inner hne).1 (hn.inner hne).2
            rw [hmm, sizeAll_cons, hm.tag, ← keyMeta_fullSize hm hk]
            simp
          | false => simp [keyLength, hk]
        rw [valSize_of_not_folded hf, hkey, hsum, hstr, sizeAll_false]
        omega
    refine ⟨?_, hval⟩
    rw [hn.sz, hval, fullSize, Int.toNat_natCast]

theorem Sized.exact {n : KnvNode} (h : All Sized n) (hs : Shaped n) : All Exact n := by
  induction n using induct with
  | h n hms hcs =>
    refine .mk ⟨h.here.valid, (sizes_eq h hs).1, (sizes_eq h hs).2, fun hf => ?_⟩
      (fun x hx => hms x hx (h.metas x hx) (hs.metas x hx)) fun x hx => hcs x hx (h.children x hx) (hs.children x hx)
    have hne : n.metalist ≠ [] ∨ n.childlist ≠ [] := by
      by_contra hcon
      rw [not_or, not_not, not_not] at hcon
      simp [isFolded, hcon.1, hcon.2] at hf
    simp [isClean, isBufferValid, (h.here.inner hne).2]

/-! ### Upwards -/

theorem SizedBy.updateEvalSz {d o : ℤ} {n : KnvNode} (h : SizedBy (o + d) n) (ht : n.type = .string) :
    SizedBy d (n.updateEvalSz o).1 ∧ (n.updateEvalSz o).2 = (n.updateEvalSz o).1.evalSz - n.evalSz := by
  unfold KnvNode.updateEvalSz
  split
  · next ho =>
    subst ho
    rw [Int.zero_add] at h
    exact ⟨h, (Int.sub_self _).symm⟩
  · refine ⟨⟨h.valid, ?_, ?_, h.inner, h.key, h.metas, h.noKey⟩, rfl⟩
    · have hval := h.val
      simp only [strLen, sumBelow] at hval ⊢
      omega
    · simp only [ht, pbEvalLength_string n.tag n.val.i64 (UInt64.ofNat (n.evalValSz + o).toNat)]

theorem SizedBy.setValueDirty {d : ℤ} {n : KnvNode} (h : SizedBy d n) (hstr : n.val.str = []) :
    SizedBy d n.setValueDirty := by
  have hval : n.setValueDirty.strLen = n.strLen := by
    simp only [strLen, hstr, KnvNode.setValueDirty]
    rfl
  exact ⟨h.valid, hval ▸ h.val, h.sz, fun hne => ⟨(h.inner hne).1, rfl⟩, fun hk ht _ => h.key hk ht hstr, h.metas,
    h.noKey⟩

/-- The end of a function that has changed an inner node by `d`. -/
theorem SizedBy.finish {d : ℤ} {n : KnvNode} (h : SizedBy d n) (hev : 0 ≤ n.evalSz) (ht : n.type = .string)
    (hstr : n.val.str = []) :
    Sized (n.finish d).node ∧ offsets (n.finish d).msgs = (n.finish d).node.evalSz - n.evalSz := by
  rw [← Int.add_zero d] at h
  obtain ⟨hn, ho⟩ := h.updateEvalSz ht
  have hstr' : (n.updateEvalSz d).1.val.str = [] := by
    unfold KnvNode.updateEvalSz
    split <;> exact hstr
  unfold KnvNode.finish
  rw [if_pos hev]
  refine ⟨hn.setValueDirty hstr', ?_⟩
  simp only [offsets_cons, offsets_nil, offset_updateParent, Int.add_zero]
  exact ho

/-- What a parent needs to take messages about sizes: it is evaluated, and is an inner node. -/
structure Inner (p : KnvNode) : Prop where
  evaluated : 0 ≤ p.evalSz
  type : p.type = .string
  str : p.val.str = []

theorem SizedBy.handle {d : ℤ} {a : ℕ} {p : KnvNode} {ev : Ev} (h : SizedBy (ev.offset + d) p) (hp : Inner p) :
    SizedBy d (p.handle a ev).1 ∧ Inner (p.handle a ev).1 ∧
      offsets (p.handle a ev).2 = (p.handle a ev).1.evalSz - p.evalSz := by
  cases ev with
  | htRemove tag key =>
    rw [Ev.offset, Int.zero_add] at h
    exact ⟨⟨h.valid, h.val, h.sz, h.inner, h.key, h.metas, h.noKey⟩, ⟨hp.evaluated, hp.type, hp.str⟩,
      (Int.sub_self _).symm⟩
  | htPut tag key =>
    rw [Ev.offset, Int.zero_add] at h
    exact ⟨⟨h.valid, h.val, h.sz, h.inner, h.key, h.metas, h.noKey⟩, ⟨hp.evaluated, hp.type, hp.str⟩,
      (Int.sub_self _).symm⟩
  | update o e b =>
    -- first the size, then the mark
    have heval : SizedBy d (p.turnEval o e).1 ∧ Inner (p.turnEval o e).1 ∧
        (if (p.turnEval o e).2.2 then (p.turnEval o e).2.1 else 0) = (p.turnEval o e).1.evalSz - p.evalSz := by
      unfold turnEval
      cases e with
      | false =>
        simp only [Ev.offset, Bool.false_eq_true, if_false, Int.zero_add] at h ⊢
        exact ⟨h, hp, (Int.sub_self _).symm⟩
      | true =>
        simp only [Ev.offset, if_true] at h ⊢
        split
        · next hc =>
          have hz : o = 0 := by
            have := hp.evaluated
            simp only [Bool.or_eq_true, decide_eq_true_eq] at hc
            omega
          rw [hz, Int.zero_add] at h
          exact ⟨h, hp, (Int.sub_self _).symm⟩
        · obtain ⟨hn, ho⟩ := h.updateEvalSz hp.type
          have ht := touched_updateEvalSz p o
          refine ⟨hn, ⟨ht.evaluated hp.evaluated, ht.type.trans hp.type, ?_⟩, ho⟩
          unfold KnvNode.updateEvalSz
          split <;> exact hp.str
    obtain ⟨hn, hi, ho⟩ := heval
    have hdirty : SizedBy d ((p.turnEval o e).1.turnDirty b).1 ∧ Inner ((p.turnEval o e).1.turnDirty b).1 ∧
        ((p.turnEval o e).1.turnDirty b).1.evalSz = (p.turnEval o e).1.evalSz := by
      unfold turnDirty
      split
      · split
        · exact ⟨hn, hi, rfl⟩
        · exact ⟨hn.setValueDirty hi.str, ⟨hi.evaluated, hi.type, rfl⟩, rfl⟩
      · exact ⟨hn, hi, rfl⟩
    obtain ⟨hn', hi', he'⟩ := hdirty
    rw [handle_update]
    split
    · refine ⟨hn', hi', ?_⟩
      simp only [offsets_cons, offsets_nil, Ev.offset, Int.add_zero]
      rw [he', ho]
    · next hc =>
      simp only [Bool.or_eq_true, not_or, Bool.not_eq_true] at hc
      rw [Ev.offset, hc.2, if_neg Bool.false_ne_true, Int.zero_add] at h
      exact ⟨h, hp, (Int.sub_self _).symm⟩

/-- A parent that is short of what its child's messages tell is short of nothing when it has taken them,
and tells its own growth. -/
theorem SizedBy.handleAll {a : ℕ} {evs : List Ev} : ∀ {p : KnvNode}, SizedBy (offsets evs) p → Inner p →
    Sized (p.handleAll a evs).1 ∧ offsets (p.handleAll a evs).2 = (p.handleAll a evs).1.evalSz - p.evalSz := by
  induction evs with
  | nil => intro p h _; exact ⟨h, (Int.sub_self _).symm⟩
  | cons ev evs ih =>
    intro p h hp
    rw [offsets_cons] at h
    obtain ⟨hn, hi, ho⟩ := h.handle (a := a) hp
    obtain ⟨hn', ho'⟩ := ih hn hi
    refine ⟨hn', ?_⟩
    rw [handleAll_cons, offsets_append, ho, ho']
    simp only
    omega

/-! ### Sums over lists -/

theorem sum_set {α : Type*} (f : α → ℤ) (x y : α) : ∀ (l : List α) (i : ℕ), l[i]? = some x →
    ((l.set i y).map f).sum = (l.map f).sum + (f y - f x) := by
  intro l
  induction l with
  | nil => intro i h; simp at h
  | cons z l ih =>
    intro i h
    cases i with
    | zero =>
      simp only [List.getElem?_cons_zero, Option.some.injEq] at h
      subst h
      simp only [List.set_cons_zero, List.map_cons, List.sum_cons]
      omega
    | succ i =>
      simp only [List.set_cons_succ, List.map_cons, List.sum_cons]
      rw [ih i h]
      omega

theorem sum_eraseP {α : Type*} (f : α → ℤ) {p : α → Bool} {x : α} : ∀ {l : List α}, l.find? p = some x →
    ((l.eraseP p).map f).sum = (l.map f).sum - f x := by
  intro l
  induction l with
  | nil => intro h; cases h
  | cons y l ih =>
    intro h
    rw [List.find?_cons] at h
    rw [List.eraseP_cons]
    cases hp : p y with
    | true =>
      simp only [hp, Option.some.injEq] at h
      subst h
      simp only [cond_true, List.map_cons, List.sum_cons]
      omega
    | false =>
      simp only [hp] at h
      simp only [cond_false, List.map_cons, List.sum_cons, ih h]
      omega

theorem sum_filter_not {α : Type*} (f : α → ℤ) (p : α → Prop) [DecidablePred p] (l : List α) :
    ((l.filter fun x => ¬p x).map f).sum = (l.map f).sum - ((l.filter fun x => p x).map f).sum := by
  induction l with
  | nil => rfl
  | cons x l ih =>
    by_cases h : p x
    · simp only [h, List.filter_cons, not_true_eq_false, decide_false, Bool.false_eq_true, if_false, decide_true,
        if_true, List.map_cons, List.sum_cons, ih]
      omega
    · simp only [h, List.filter_cons, not_false_eq_true, decide_true, if_true, decide_false, Bool.false_eq_true,
        if_false, List.map_cons, List.sum_cons, ih]
      omega

/-- Replacing the one element with a key by another. -/
theorem sum_replace {α β : Type*} [DecidableEq β] (f : α → ℤ) (key : α → β) {x y : α} (hkey : key y = key x) :
    ∀ {l : List α}, (l.map key).Nodup → x ∈ l →
    ((l.map fun z => if key z = key y then y else z).map f).sum = (l.map f).sum + (f y - f x) := by
  intro l
  induction l with
  | nil => intro _ h; exact absurd h List.not_mem_nil
  | cons z l ih =>
    intro hnd h
    rw [List.map_cons, List.nodup_cons] at hnd
    simp only [List.map_cons, List.sum_cons]
    rcases List.mem_cons.mp h with rfl | h
    · -- the others have other keys
      have hsame : (l.map fun z => if key z = key y then y else z) = l := by
        rw [List.map_congr_left (g := id), List.map_id]
        intro z hz
        rw [if_neg]
        · rfl
        · intro he
          exact hnd.1 (List.mem_map.mpr ⟨z, hz, he.trans hkey⟩)
      rw [hsame, if_pos hkey.symm]
      omega
    · have hne : key z ≠ key y := fun he => hnd.1 (List.mem_map.mpr ⟨x, h, (he.trans hkey).symm⟩)
      rw [if_neg hne, ih hnd.2 h]
      omega

/-! ### Operations -/

/-- An operation on the node `n` keeps the sizes right, and tells how much the node has grown. -/
structure Grows (n : KnvNode) (o : Out) : Prop where
  sized : All Sized o.node
  told : offsets o.msgs = o.node.evalSz - n.evalSz

/-- The node is not a string leaf: there is nothing in its value to look into. -/
def NoString (n : KnvNode) : Prop := n.type = .string → n.val.str = []

variable {n : KnvNode} {pl : Place}

theorem grows_same (h : All Sized n) (r : Except KnvErr ℕ) : Grows n ⟨n, [], r⟩ := ⟨h, (Int.sub_self _).symm⟩

theorem grows_finish {n' : KnvNode} {d : ℤ} (h : SizedBy d n') (hms : ∀ m ∈ n'.metalist, All Sized m)
    (hcs : ∀ c ∈ n'.childlist, All Sized c) (hi : Inner n') (hsz : n'.evalSz = n.evalSz) : Grows n (n'.finish d) := by
  obtain ⟨hn, ho⟩ := h.finish hi.evaluated hi.type hi.str
  have ht := touched_finish n' d
  exact ⟨.mk hn (ht.metalist ▸ hms) (ht.childlist ▸ hcs), hsz ▸ ho⟩

theorem eq_expanded (h : n.expanded = true) : n = { n with expanded := true } := by
  obtain ⟨d, ms, cs⟩ := n
  simp only at h
  simp [← h]

/-- A node without a string in it expands to itself. -/
theorem innerExpand_noString (hs : Shape n) (hstr : NoString n) (pk k : Bool) :
    ∃ b, n.innerExpand pk k = { n with expanded := true, childHasKey := b } := by
  refine innerExpand_rule (P := fun n' => ∃ b, n' = { n with expanded := true, childHasKey := b }) (fun h => ?_)
    fun n' hexp hn' => ?_
  · exact ⟨n.childHasKey, eq_expanded h⟩
  · obtain ⟨hms, hcs⟩ := hs.folded hexp
    obtain ⟨d, ms, cs⟩ := n
    simp only at hms hcs
    subst hms hcs
    cases hn' with
    | leaf _ => exact ⟨false, rfl⟩
    | message _ _ _ ht _ hb _ => rw [hstr ht] at hb; cases hb
    | cut _ _ _ ht _ hb _ => rw [hstr ht] at hb; cases hb

/-- What an operation on a node finds after expanding it: the node it was. -/
structure Opened (n n' : KnvNode) : Prop where
  sized : Sized n'
  metas : ∀ m ∈ n'.metalist, All Sized m
  children : ∀ c ∈ n'.childlist, All Sized c
  shape : Shaped n'
  evalSz : n'.evalSz = n.evalSz
  type : n'.type = n.type
  noString : NoString n'

theorem opened (h : All Sized n) (hs : Shaped n) (hstr : NoString n) (pk k : Bool) : Opened n (n.innerExpand pk k) := by
  have hshape := hs.innerExpand pk k
  obtain ⟨b, hb⟩ := innerExpand_noString hs.here hstr pk k
  rw [hb] at hshape ⊢
  have hn := h.here
  exact ⟨⟨hn.valid, hn.val, hn.sz, hn.inner, hn.key, hn.metas, hn.noKey⟩, h.metas, h.children, hshape, rfl, rfl, hstr⟩

theorem Opened.all {n' : KnvNode} (h : Opened n n') : All Sized n' := .mk h.sized h.metas h.children

theorem Opened.inner {n' : KnvNode} (h : Opened n n') (ht : n.type = .string) : Inner n' :=
  ⟨h.shape.here.evaluated, h.type.trans ht, h.noString (h.type.trans ht)⟩

/-- A node of its own, with nothing below it and no key. -/
theorem sized_of_nil {m : KnvNode} (hv : m.isValid = true) (hval : m.evalValSz = m.strLen)
    (hsz : m.evalSz = pbEvalLength m.tag m.type m.val.i64 m.evalValSz.toNat) (hms : m.metalist = [])
    (hcs : m.childlist = []) (hk : m.type = .string → m.val.str = [] → m.hasKey = false) : All Sized m := by
  refine .of_nil ⟨hv, ?_, hsz, ?_, ?_, fun _ _ _ => .inl hms, by simp [hms]⟩ hms hcs
  · simp [sumBelow, hms, hcs, hval]
  · intro hne
    simp [hms, hcs] at hne
  · intro hkey ht hstr
    rw [hk ht hstr] at hkey
    cases hkey

theorem pbEvalFieldLength_pick (tag : UInt32) (type : PbType) (v : PbVal) (len : ℕ)
    (hlen : type = .string → len = v.str.length) :
    pbEvalFieldLength tag type v = pbEvalLength tag type v.i64 len := by
  rw [pbEvalFieldLength]
  by_cases ht : type = .string
  · rw [hlen ht]
  · exact pbEvalLength_of_ne ht ..

/-- A node that `InitNode` evaluated has the right sizes. -/
theorem sized_initNode {tag : UInt32} (htag : tag ≠ 0) (type : PbType) (value : Option PbVal) (forceNoKey : Bool) :
    All Sized (initNode tag type value true 0 forceNoKey) := by
  refine sized_of_nil (by simpa [initNode, isValid] using htag) ?_ ?_ rfl rfl ?_
  · simp only [initNode, strLen, if_true]
  · simp only [initNode, if_true, Nat.lt_irrefl, if_false]
    rw [pbEvalFieldLength_pick]
    intro ht
    simp [ht]
  · intro ht hstr
    simp only [initNode] at hstr ht
    simp [hasKey, initNode, hstr]

/-! #### Metas -/

/-- `metas[]` leads to a meta of its tag. -/
theorem tag_of_metaAt {n m : KnvNode} {tag : UInt32} (h : Sized n) (hs : Shape n) (hm : n.metaAt tag = some m) :
    m.tag = tag := by
  unfold metaAt at hm
  split at hm
  · cases hm
  · next hne =>
    obtain ⟨a, ha, hfind⟩ := Option.bind_eq_some_iff.mp hm
    have hself : m.self = a := by simpa using List.find?_some hfind
    rcases h.metas tag a ha with hnil | ⟨x, hx, hxa, hxt⟩
    · simp [hnil] at hne
    · have heq : x = m := List.inj_on_of_nodup_map (nodup_metas hs) hx (List.mem_of_find?_eq_some hfind)
        (hxa.trans hself.symm)
      exact heq ▸ hxt

/-- A meta that is overwritten has nothing below it, and the right sizes. -/
theorem sized_overwrite {m : KnvNode} {tag : UInt32} (h : All Sized m) (hs : Shape m) (htag : m.tag = tag)
    (hk : m.noKey = true) (type : PbType) (data : Option PbVal) :
    All Sized (m.overwrite tag type data false) := by
  set m' := m.overwrite tag type data false with hm'
  have hv : m'.isValid = true := by
    have := h.here.valid
    rw [hm', overwrite_eq]
    split <;> exact this
  have hms : m'.metalist = [] ∧ m'.childlist = [] := by
    rw [hm', overwrite_eq]
    split
    · exact ⟨rfl, rfl⟩
    · next he => exact hs.folded (by simpa using he)
  have hmem : m'.tag = m.tag ∧ m'.noKey = m.noKey ∧ m'.type = type ∧ m'.evalValSz = m'.strLen ∧
      m'.evalSz = pbEvalFieldLength tag type m'.val := by
    rw [hm', overwrite_eq]
    split <;> exact ⟨rfl, rfl, rfl, rfl, rfl⟩
  obtain ⟨ht, hn, hty, hval, hsz⟩ := hmem
  refine sized_of_nil hv hval ?_ hms.1 hms.2 fun _ _ => by simp [hasKey, hn, hk]
  rw [hsz, ht, htag, hty]
  rw [pbEvalFieldLength_pick]
  intro hstr
  rw [hval, strLen, if_pos (hty.trans hstr), Int.toNat_natCast]

/-- The head of the metas is the key, and stays where it is. -/
theorem SizedBy.key_of {d : ℤ} {n n' : KnvNode} (h : SizedBy d n) (hkey : n'.hasKey = n.hasKey) (hk : n'.key = n.key)
    (ht : n'.type = n.type) (hstr : n'.val.str = n.val.str)
    (hhead : ∀ m ms, n.metalist = m :: ms → m.tag = 1 → ∃ ms', n'.metalist = m :: ms') :
    n'.hasKey = true → n'.type = .string → n'.val.str = [] → ∃ m ms, n'.metalist = m :: ms ∧ KeyMeta n'.key m := by
  intro hk' ht' hstr'
  obtain ⟨m, ms, hm, hkm⟩ := h.key (hkey ▸ hk') (ht ▸ ht') (hstr ▸ hstr')
  obtain ⟨ms', hm'⟩ := hhead m ms hm hkm.tag
  exact ⟨m, ms', hm', hk ▸ hkm⟩

theorem SizedBy.addMetaNode {n : KnvNode} (h : Sized n) (hi : Inner n) {tag : UInt32} (htag : tag ≠ 1)
    (type : PbType) (data : Option PbVal) : SizedBy (metaSize tag type data) (n.addMetaNode tag type data) := by
  have hlist : (n.addMetaNode tag type data).metalist =
      n.metalist ++ [(initNode tag type data true 0 true).at' n.slots] := if_neg htag
  refine ⟨h.valid, ?_, h.sz, fun _ => ⟨hi.type, hi.str⟩, ?_, fun t a hta => .inr ?_, fun m hm => ?_⟩
  · have hval := h.val
    have hnew : ((initNode tag type data true 0 true).at' n.slots).evalSz = metaSize tag type data := rfl
    have hstr : (n.addMetaNode tag type data).strLen = n.strLen := rfl
    have hcs : (n.addMetaNode tag type data).childlist = n.childlist := rfl
    have hv : (n.addMetaNode tag type data).evalValSz = n.evalValSz := rfl
    rw [hstr, hv, sumBelow, hcs, hlist, List.map_append, List.sum_append, List.map_cons, List.map_nil, List.sum_cons,
      List.sum_nil, hnew]
    rw [sumBelow] at hval
    omega
  · refine SizedBy.key_of h rfl rfl rfl rfl fun m ms hm _ => ?_
    rw [hlist, hm]
    exact ⟨_, rfl⟩
  · rw [hlist]
    simp only [KnvNode.addMetaNode] at hta
    split at hta
    · next htt =>
      cases hta
      exact ⟨_, List.mem_append_right _ (List.mem_singleton_self _), rfl, htt.symm⟩
    · split at hta
      · cases hta
      · next hne =>
        rcases h.metas t a hta with hnil | ⟨m, hm, hma, hmt⟩
        · simp [hnil] at hne
        · exact ⟨m, List.mem_append_left _ hm, hma, hmt⟩
  · rw [hlist] at hm
    rcases List.mem_append.mp hm with hm | hm
    · exact h.noKey m hm
    · rw [List.mem_singleton.mp hm]
      rfl

theorem SizedBy.setMetaNode {n m m' : KnvNode} (h : Sized n) (hs : Shape n) (hi : Inner n) (hm : m ∈ n.metalist)
    (hself : m'.self = m.self) (htag : m'.tag = m.tag) (hne : m.tag ≠ 1) (hk : m'.noKey = true) :
    SizedBy (m'.evalSz - m.evalSz) (n.setMetaNode m') := by
  have hnd := nodup_metas hs
  refine ⟨h.valid, ?_, h.sz, fun _ => ⟨hi.type, hi.str⟩, ?_, fun t a hta => ?_, fun x hx => ?_⟩
  · have hval := h.val
    have hsum : ((n.setMetaNode m').metalist.map (·.evalSz)).sum =
        (n.metalist.map (·.evalSz)).sum + (m'.evalSz - m.evalSz) := sum_replace (·.evalSz) (·.self) hself hnd hm
    have hrest : (n.setMetaNode m').strLen = n.strLen ∧ (n.setMetaNode m').childlist = n.childlist ∧
        (n.setMetaNode m').evalValSz = n.evalValSz := ⟨rfl, rfl, rfl⟩
    rw [hrest.1, hrest.2.2, sumBelow, hrest.2.1, hsum]
    rw [sumBelow] at hval
    omega
  · refine SizedBy.key_of h rfl rfl rfl rfl fun x ms hx hx1 => ?_
    have hxm : x.self ≠ m'.self := by
      intro he
      have : x = m := List.inj_on_of_nodup_map hnd (hx ▸ List.mem_cons_self ..) hm (he.trans hself)
      exact hne (this ▸ hx1)
    exact ⟨_, by simp only [KnvNode.setMetaNode, hx, List.map_cons, if_neg hxm]; rfl⟩
  · rcases h.metas t a hta with hnil | ⟨x, hx, hxa, hxt⟩
    · exact absurd hm (hnil ▸ List.not_mem_nil)
    · right
      by_cases he : x.self = m'.self
      · have : x = m := List.inj_on_of_nodup_map hnd hx hm (he.trans hself)
        refine ⟨m', List.mem_map.mpr ⟨x, hx, if_pos he⟩, he ▸ hxa, ?_⟩
        rw [htag, ← this, hxt]
      · exact ⟨x, List.mem_map.mpr ⟨x, hx, if_neg he⟩, hxa, hxt⟩
  · obtain ⟨y, hy, rfl⟩ := List.mem_map.mp hx
    split
    · exact hk
    · exact h.noKey y hy

theorem grows_setMetaInner (h : All Sized n) (hs : Shaped n) (hstr : NoString n) {tag : UInt32} (h0 : tag ≠ 0)
    (h1 : tag ≠ 1) (type : PbType) (data : Option PbVal) : Grows n (n.setMetaInner tag type data true pl) := by
  refine setMetaInner_rule (fun _ _ => grows_same h _) fun _ ht _ n' hn' => ?_
  have ho : Opened n n' := hn' ▸ opened h hs hstr ..
  have hi := ho.inner ht
  refine ⟨fun m hm => ?_, fun hm => ?_⟩
  · have hmem := metaAt_mem hm
    have htag := tag_of_metaAt ho.sized ho.shape.here hm
    have hkey : (!n'.noKey && tag == 1) = false := by simp [h1]
    have hk := ho.sized.noKey m hmem
    have hsm := ho.shape.metas m hmem
    rw [hkey, evaluateSize_of_nonneg hsm.here.evaluated]
    have hover := sized_overwrite (ho.metas m hmem) hsm.here htag hk type data
    have hmembers : (m.overwrite tag type data false).tag = m.tag ∧ (m.overwrite tag type data false).noKey = m.noKey ∧
        (m.overwrite tag type data false).evalSz = metaSize tag type data := by
      rw [overwrite_eq]
      split <;> exact ⟨rfl, rfl, rfl⟩
    have hby := SizedBy.setMetaNode ho.sized ho.shape.here hi hmem (self_overwrite ..) hmembers.1 (htag ▸ h1)
      (hmembers.2.1.trans hk)
    rw [hmembers.2.2] at hby
    refine grows_finish hby (fun x hx => ?_) ho.children ⟨hi.evaluated, hi.type, hi.str⟩ ho.evalSz
    obtain ⟨y, hy, rfl⟩ := List.mem_map.mp hx
    split
    · exact hover
    · exact ho.metas y hy
  · have hby := SizedBy.addMetaNode ho.sized hi h1 type data
    refine grows_finish hby (fun x hx => ?_) ho.children ⟨hi.evaluated, hi.type, hi.str⟩ ho.evalSz
    rw [KnvNode.addMetaNode, if_neg h1] at hx
    rcases List.mem_append.mp hx with hx | hx
    · exact ho.metas x hx
    · rw [List.mem_singleton.mp hx]
      have hnew := sized_initNode h0 type data true
      exact .of_nil ⟨hnew.here.valid, hnew.here.val, hnew.here.sz, hnew.here.inner, hnew.here.key, hnew.here.metas,
        hnew.here.noKey⟩ rfl rfl

theorem grows_innerRemoveMeta (h : All Sized n) (hs : Shaped n) (hstr : NoString n) {tag : UInt32} (h1 : tag ≠ 1) :
    Grows n (n.innerRemoveMeta tag pl) := by
  refine innerRemoveMeta_rule (fun _ _ => grows_same h _) fun _ _ n' hn' => ?_
  have ho : Opened n n' := hn' ▸ opened h hs hstr ..
  refine ⟨fun _ => ⟨ho.all, by rw [ho.evalSz]; exact (Int.sub_self _).symm⟩, fun m hm => ?_⟩
  have hmem := metaAt_mem hm
  have htag := tag_of_metaAt ho.sized ho.shape.here hm
  have hnd := nodup_metas ho.shape.here
  have hin := ho.sized.inner (.inl (List.ne_nil_of_mem hmem))
  have hfind : (n'.metalist.find? fun x => x.self = m.self) = some m := by
    unfold metaAt at hm
    split at hm
    · cases hm
    · obtain ⟨a, _, hf⟩ := Option.bind_eq_some_iff.mp hm
      have hself : m.self = a := by simpa using List.find?_some hf
      rw [hself]
      exact hf
  rw [evaluateSize_of_nonneg (ho.shape.metas m hmem).here.evaluated]
  refine grows_finish ⟨ho.sized.valid, ?_, ho.sized.sz, fun _ => hin, ?_, fun t a hta => ?_, fun x hx => ?_⟩
    (fun x hx => ho.metas x (List.mem_of_mem_eraseP hx)) ho.children ⟨ho.shape.here.evaluated, hin.1, hin.2⟩ ho.evalSz
  · have hval := ho.sized.val
    have hsum := sum_eraseP (·.evalSz) hfind
    simp only [sumBelow] at hval ⊢
    rw [hsum]
    have hrest : n'.strLen = n'.strLen := rfl
    simp only [strLen] at hval ⊢
    omega
  · refine SizedBy.key_of ho.sized rfl rfl rfl rfl fun x ms hx hx1 => ?_
    have hne : x.self ≠ m.self := by
      intro he
      have : x = m := List.inj_on_of_nodup_map hnd (hx ▸ List.mem_cons_self ..) hmem he
      exact h1 (htag ▸ this ▸ hx1)
    exact ⟨_, by simp only [hx, List.eraseP_cons, hne, decide_false, cond_false]; rfl⟩
  · simp only at hta
    split at hta
    · cases hta
    · next hne =>
      rcases ho.sized.metas t a hta with hnil | ⟨x, hx, hxa, hxt⟩
      · exact absurd hmem (hnil ▸ List.not_mem_nil)
      · refine .inr ⟨x, (List.mem_eraseP_of_neg ?_).mpr hx, hxa, hxt⟩
        intro he
        have : x = m := List.inj_on_of_nodup_map hnd hx hmem (by simpa using he)
        exact hne (hxt ▸ htag ▸ this ▸ rfl)
  · exact ho.sized.noKey x (List.mem_of_mem_eraseP hx)

/-! #### Children -/

/-- Other children, with sizes that differ by `d` in total. -/
theorem SizedBy.withChildren {n : KnvNode} (h : Sized n) (hi : Inner n) (ht : KnvHt) (chk : Bool) (slots : ℕ)
    {cs : List KnvNode} {d : ℤ} (hsum : (cs.map (·.evalSz)).sum = (n.childlist.map (·.evalSz)).sum + d) :
    SizedBy d { n with ht := ht, childHasKey := chk, slots := slots, childlist := cs } := by
  refine ⟨h.valid, ?_, h.sz, fun _ => ⟨hi.type, hi.str⟩, h.key, h.metas, h.noKey⟩
  have hval := h.val
  simp only [sumBelow] at hval ⊢
  rw [hsum]
  simp only [strLen] at hval ⊢
  omega

theorem grows_withChildren {n' : KnvNode} (ho : Opened n n') (ht : n.type = .string) (ht' : KnvHt) (chk : Bool)
    (slots : ℕ) {cs : List KnvNode} {d : ℤ} (hsum : (cs.map (·.evalSz)).sum = (n'.childlist.map (·.evalSz)).sum + d)
    (hcs : ∀ c ∈ cs, All Sized c) :
    Grows n (finish { n' with ht := ht', childHasKey := chk, slots := slots, childlist := cs } d) := by
  have hi := ho.inner ht
  exact grows_finish (ho.sized.withChildren hi ht' chk slots hsum) ho.metas hcs ⟨hi.evaluated, hi.type, hi.str⟩ ho.evalSz

theorem Sized.at' {c : KnvNode} (h : All Sized c) (a : ℕ) : All Sized (c.at' a) :=
  All.at' (fun _ _ h => ⟨h.valid, h.val, h.sz, h.inner, h.key, h.metas, h.noKey⟩) h

theorem grows_insertChild {c : KnvNode} (h : All Sized n) (hs : Shaped n) (hstr : NoString n) (hc : All Sized c)
    (hcs : Shaped c) (atTail : Bool) : Grows n (insertChild c true atTail pl n) := by
  refine insertChild_rule (fun _ => grows_same h _) fun _ ht n' hn' => ?_
  have ho : Opened n n' := hn' ▸ opened h hs hstr ..
  refine ⟨fun _ => ⟨ho.all, by rw [ho.evalSz]; exact (Int.sub_self _).symm⟩, fun d hd c' hc' => ?_⟩
  have heq : c' = c := by
    cases hd
    rw [hc', evaluateSize_of_nonneg hcs.here.evaluated, ite_self]
  subst heq
  unfold KnvNode.linkChild
  refine grows_withChildren ho ht _ _ _ ?_ fun x hx => ?_
  · cases atTail
    · simp [KnvNode.at', Int.add_comm]
    · simp [KnvNode.at']
  · have hmem : x ∈ n'.childlist ∨ x = c'.at' n'.slots := by
      cases atTail <;> simpa [or_comm] using hx
    rcases hmem with hx | rfl
    · exact ho.children x hx
    · exact Sized.at' hc _

theorem grows_removeChildByPos {n' : KnvNode} (ho : Opened n n') (a : ℕ) (pos : Option ℕ) :
    Grows n (n'.removeChildByPos a pos) := by
  refine removeChildByPos_rule ⟨ho.all, by rw [ho.evalSz]; exact (Int.sub_self _).symm⟩ fun c hc o hout => ?_
  have hmem := List.mem_of_find?_eq_some hc
  have ht : n.type = .string := ho.type ▸ (ho.sized.inner (.inr (List.ne_nil_of_mem hmem))).1
  have hgrow : Grows n o := by
    rw [hout, if_pos ho.shape.here.evaluated, evaluateSize_of_nonneg (ho.shape.children c hmem).here.evaluated]
    exact grows_withChildren ho ht _ _ _ (sum_eraseP (·.evalSz) hc) fun x hx =>
      ho.children x (List.mem_of_mem_eraseP hx)
  exact ⟨hgrow.sized, hgrow.told⟩

theorem grows_removeChild (h : All Sized n) (hs : Shaped n) (hstr : NoString n) (t : UInt32) (k : Bytes) :
    Grows n (n.removeChild t k pl) := by
  refine removeChild_rule (grows_same h _) fun _ n' hn' => ?_
  have ho : Opened n n' := hn' ▸ opened h hs hstr ..
  exact ⟨⟨ho.all, by rw [ho.evalSz]; exact (Int.sub_self _).symm⟩, fun a _ => grows_removeChildByPos ho a _⟩

theorem grows_removeChildrenByTag (h : All Sized n) (hs : Shaped n) (hstr : NoString n) (t : UInt32) :
    Grows n (n.removeChildrenByTag t pl) := by
  refine removeChildrenByTag_rule (fun _ => grows_same h _) fun _ n' hn' => ?_
  have ho : Opened n n' := hn' ▸ opened h hs hstr ..
  refine ⟨⟨ho.all, by rw [ho.evalSz]; exact (Int.sub_self _).symm⟩, fun matched hmatched hne o hout => ?_⟩
  have hmem : ∀ c ∈ matched, c ∈ n'.childlist := fun c hc => (List.mem_filter.mp (hmatched ▸ hc)).1
  have ht : n.type = .string := by
    obtain ⟨c, hc⟩ := List.exists_mem_of_ne_nil _ hne
    exact ho.type ▸ (ho.sized.inner (.inr (List.ne_nil_of_mem (hmem c hc)))).1
  have heval : matched.map (·.evaluateSize.evalSz) = matched.map (·.evalSz) :=
    List.map_congr_left fun c hc => by rw [evaluateSize_of_nonneg (ho.shape.children c (hmem c hc)).here.evaluated]
  have hgrow : Grows n o := by
    rw [hout, if_pos ho.shape.here.evaluated, heval]
    refine grows_withChildren ho ht _ _ _ ?_ fun x hx => ho.children x (List.mem_filter.mp hx).1
    rw [sum_filter_not, hmatched]
    omega
  exact ⟨hgrow.sized, hgrow.told⟩

/-! #### Values and tags -/

theorem grows_setValueInt (h : All Sized n) (v : UInt64) : Grows n (n.setValueInt v) := by
  refine setValueInt_rule (fun _ => grows_same h _) fun _ ht => ⟨?_, by simp⟩
  have hn := h.here
  have hnil : n.metalist = [] ∧ n.childlist = [] := by
    by_contra hcon
    rw [not_and_or] at hcon
    exact ht (hn.inner hcon).1
  refine sized_of_nil hn.valid (by simp [strLen, ht]) ?_ hnil.1 hnil.2 fun ht' => absurd ht' ht
  rw [pbEvalFieldLength]
  exact congrArg _ (pbEvalLength_of_ne ht ..)

theorem grows_setTag (h : All Sized n) (hs : Shaped n) (t : UInt32) : Grows n (n.setTag t) := by
  refine setTag_rule (fun _ => grows_same h _) fun ht0 _ sz hsz => ⟨?_, by simp⟩
  have hn := h.here
  rw [if_pos hs.here.evaluated] at hsz
  refine .mk ⟨by simpa [isValid] using ht0, hn.val, ?_, hn.inner, hn.key, hn.metas, hn.noKey⟩ h.metas h.children
  rw [hsz]
  split
  · next hty => rw [hty]; rfl
  · next hty =>
    rw [pbEvalFieldLength]
    exact congrArg _ (pbEvalLength_of_ne hty ..)

/-- A parent that takes the messages of a child that has grown keeps the sizes right. -/
theorem SizedBy.setSlot {p c c' : KnvNode} {i : ℕ} (h : Sized p) (hi : Inner p) (hc : p.childlist[i]? = some c) :
    SizedBy (c'.evalSz - c.evalSz) (p.setSlot (.ofChild i) c') :=
  h.withChildren hi p.ht p.childHasKey p.slots (sum_set _ c c' _ _ hc)

end KnvNode

/-! ### Runs -/

open KnvNode

/-- The functions that build a tree, but `InsertChild`. -/
inductive BuildOp : Op → Prop
  /-- `InsertSubNode`. -/
  | insertSubNode {tag : UInt32} {key : Option KnvKey} {c : KnvNode} :
      newTree tag key = .ok c → BuildOp (.insertChild c true true)
  /-- `InsertIntLeaf`. -/
  | insertIntLeaf {tag : UInt32} {v : UInt64} {c : KnvNode} :
      new tag .varint .string none (some { i64 := v }) = .ok c → BuildOp (.insertChild c true true)
  /-- `InsertStrLeaf`. -/
  | insertStrLeaf {tag : UInt32} {s : Bytes} {c : KnvNode} :
      new tag .string .string none (some { str := s }) = .ok c → BuildOp (.insertChild c true true)
  /-- `RemoveChild`. -/
  | removeChild (t : UInt32) (k : Bytes) : BuildOp (.removeChild t k)
  /-- `RemoveChildrenByTag`. -/
  | removeChildrenByTag (t : UInt32) : BuildOp (.removeChildrenByTag t)
  /-- `SetMetaInt`, with a tag from 2 to 10. -/
  | setMetaInt {tag : UInt32} (v : UInt64) : 2 ≤ tag → tag ≤ 10 → BuildOp (.setMeta tag .varint (some { i64 := v }))
  /-- `SetMetaStr`, with a tag from 2 to 10. -/
  | setMetaStr {tag : UInt32} (s : Bytes) : 2 ≤ tag → tag ≤ 10 → BuildOp (.setMeta tag .string (some { str := s }))
  /-- `RemoveMeta`, with a tag from 2 to 10. -/
  | removeMeta {tag : UInt32} : 2 ≤ tag → tag ≤ 10 → BuildOp (.removeMeta tag)

/-- A path that goes through children only. -/
def ChildPath (path : List Slot) : Prop := ∀ s ∈ path, ∃ i, s = .ofChild i

/-- The trees built from `NewTree`: every function acts on a node found through children that is not
a string leaf, but `SetTag`, which may act on any. -/
inductive Built : KnvNode → Prop
  /-- `NewTree`, with or without key. -/
  | newTree {tag : UInt32} {key : Option KnvKey} {n : KnvNode} : newTree tag key = .ok n → Built n
  /-- A function on a node of the tree. -/
  | step {root : KnvNode} {op : Op} {path : List Slot} {out : Out} : Built root → BuildOp op → ChildPath path →
      (∀ t, nodeAt hanging path root = some t → NoString t) → op.runAt path root = some out → Built out.node
  /-- `InsertChild`, of another such tree with ownership, at the front or the tail. -/
  | insertChild {root c : KnvNode} {atTail : Bool} {path : List Slot} {out : Out} : Built root → Built c →
      ChildPath path → (∀ t, nodeAt hanging path root = some t → NoString t) →
      (Op.insertChild c true atTail).runAt path root = some out → Built out.node
  /-- `SetValue(int_val)`, of an integer leaf. -/
  | setValueInt {root : KnvNode} {v : UInt64} {path : List Slot} {out : Out} : Built root → ChildPath path →
      (Op.setValueInt v).runAt path root = some out → Built out.node
  /-- `SetTag`, with a non-zero tag. -/
  | setTag {root : KnvNode} {t : UInt32} {path : List Slot} {out : Out} : Built root → ChildPath path → t ≠ 0 →
      (Op.setTag t).runAt path root = some out → Built out.node

namespace KnvNode

theorem sized_new {tag : UInt32} {type : PbType} {val : Option PbVal} {c : KnvNode}
    (h : new tag type .string none val = .ok c) : All Sized c ∧ Shaped c := by
  obtain ⟨ht, ⟨-, rfl⟩ | ⟨k, hk, -⟩⟩ := new_cases h
  · exact ⟨sized_initNode ht type val false, shaped_initNode ..⟩
  · cases hk

/-- One meta makes a new tree with a key right. -/
theorem sizedBy_addKey {tag : UInt32} (ht : tag ≠ 0) (k : KnvKey) :
    SizedBy (metaSize 1 k.type (some k.getValue)) ((treeWithKey tag k).addMetaNode 1 k.type (some k.getValue)) := by
  have hlist : ((treeWithKey tag k).addMetaNode 1 k.type (some k.getValue)).metalist =
      [(initNode 1 k.type (some k.getValue) true 0 true).at' 0] := rfl
  refine ⟨bne_iff_ne.mpr ht, ?_, rfl, fun _ => ⟨rfl, rfl⟩, fun _ _ _ => ⟨_, [], hlist, rfl, rfl, rfl, rfl, rfl⟩, ?_, ?_⟩
  · have hsum : ((treeWithKey tag k).addMetaNode 1 k.type (some k.getValue)).sumBelow =
        metaSize 1 k.type (some k.getValue) + 0 + 0 := rfl
    rw [hsum]
    have hzero : ((treeWithKey tag k).addMetaNode 1 k.type (some k.getValue)).evalValSz = 0 ∧
        ((treeWithKey tag k).addMetaNode 1 k.type (some k.getValue)).strLen = 0 := ⟨rfl, rfl⟩
    rw [hzero.1, hzero.2]
    omega
  · intro t a hta
    refine .inr ⟨_, hlist ▸ List.mem_singleton_self _, ?_⟩
    simp only [addMetaNode, treeWithKey] at hta
    split at hta
    · next h => cases hta; exact ⟨rfl, h.symm⟩
    · cases hta
  · intro m hm
    rw [hlist] at hm
    rw [List.mem_singleton.mp hm]
    rfl

/-- `NewTree` makes a node with the right sizes. -/
theorem sized_newTree {tag : UInt32} {key : Option KnvKey} {n : KnvNode} (h : newTree tag key = .ok n) :
    All Sized n := by
  obtain ⟨ht, k, -, ⟨hk, rfl⟩ | ⟨-, rfl⟩⟩ := newTree_cases h
  · exact sized_of_nil (bne_iff_ne.mpr ht) rfl rfl rfl rfl fun _ _ => by simp [hasKey, treeWithKey, hk]
  · have hi : Inner ((treeWithKey tag k).addMetaNode 1 k.type (some k.getValue)) := ⟨Int.natCast_nonneg _, rfl, rfl⟩
    refine (grows_finish (n := treeWithKey tag k) (sizedBy_addKey ht k) (fun m hm => ?_)
      (fun _ hc => absurd hc List.not_mem_nil) hi rfl).sized
    have hm' : m ∈ [(initNode 1 k.type (some k.getValue) true 0 true).at' 0] := hm
    rw [List.mem_singleton.mp hm']
    exact Sized.at' (sized_initNode (by decide) ..) _

/-- An operation that keeps the sizes of its node right, and tells how much the node has grown, keeps the
sizes of the whole tree right. -/
theorem sized_runAt (op : Op) {root : KnvNode} {path : List Slot} {out : Out} (h : All Sized root)
    (hs : Shaped root) (hop : op.Given Shaped) (hpath : ChildPath path)
    (hgrow : ∀ pl t, nodeAt hanging path root = some t → All Sized t → Shaped t → Grows t (op.run pl t))
    (hrun : op.runAt path root = some out) : All Sized out.node ∧ Shaped out.node := by
  refine (editAt_rule (H := hanging) (fun _ n => All Sized n ∧ Shaped n)
    (fun _ n n' msgs => n'.self = n.self ∧ offsets msgs = n'.evalSz - n.evalSz)
    (fun s => ∃ i, s = .ofChild i) (fun _ _ _ _ hn _ hc => ⟨All.slot hn.1 hc, All.slot hn.2 hc⟩) ?_ path {} root
    out hpath ⟨h, hs⟩ (fun pl t _ ht hJ => ?_) hrun).1
  · rintro _ p _ c c' msgs ⟨hp, hsp⟩ ⟨i, rfl⟩ hc ⟨hc', hsc'⟩ ⟨hself, hmsgs⟩
    have hc : p.childlist[i]? = some c := hc
    have hin := hp.here.inner (.inr (List.ne_nil_of_mem (List.mem_of_getElem? hc)))
    have hi : Inner p := ⟨hsp.here.evaluated, hin.1, hin.2⟩
    rw [notify_setSlot (s := .ofChild i) hc]
    have ht := touched_handleAll c'.self msgs (p.setSlot (.ofChild i) c')
    have hby : SizedBy (offsets msgs) (p.setSlot (.ofChild i) c') := hmsgs ▸ SizedBy.setSlot hp.here hi hc
    obtain ⟨hn, ho⟩ := hby.handleAll (a := c'.self) ⟨hi.evaluated, hi.type, hi.str⟩
    refine ⟨⟨.mk hn (ht.metalist ▸ hp.metas) fun x hx => ?_, (hsp.setSlot (s := .ofChild i) hc hsc' hself).touched ht⟩,
      ht.self, ho⟩
    rw [ht.childlist] at hx
    exact (List.mem_or_eq_of_mem_set hx).elim (hp.children x) fun e => e ▸ hc'
  · obtain ⟨hg, hself⟩ := shaped_run hJ.2 op hop pl
    have hgr := hgrow pl t ht hJ.1 hJ.2
    exact ⟨⟨hgr.sized, hg⟩, hself, hgr.told⟩

theorem grows_buildOp {op : Op} (hop : BuildOp op) {t : KnvNode} (ht : All Sized t) (hs : Shaped t)
    (hstr : NoString t) (pl : Place) : Grows t (op.run pl t) := by
  have hmeta : ∀ {tag : UInt32}, 2 ≤ tag → tag ≠ 0 ∧ tag ≠ 1 := by
    intro tag h2
    have : 2 ≤ tag.toNat := h2
    constructor <;> rintro rfl <;> exact absurd this (by decide)
  cases hop with
  | insertSubNode hc => exact grows_insertChild ht hs hstr (sized_newTree hc) (shaped_newTree hc) _
  | insertIntLeaf hc => exact grows_insertChild ht hs hstr (sized_new hc).1 (sized_new hc).2 _
  | insertStrLeaf hc => exact grows_insertChild ht hs hstr (sized_new hc).1 (sized_new hc).2 _
  | removeChild t' k => exact grows_removeChild ht hs hstr t' k
  | removeChildrenByTag t' => exact grows_removeChildrenByTag ht hs hstr t'
  | setMetaInt v h2 _ =>
    exact setMeta_rule (P := Grows t) (fun _ h1 => absurd h1 (hmeta h2).2) fun _ =>
      grows_setMetaInner ht hs hstr (hmeta h2).1 (hmeta h2).2 ..
  | setMetaStr s h2 _ =>
    exact setMeta_rule (P := Grows t) (fun _ h1 => absurd h1 (hmeta h2).2) fun _ =>
      grows_setMetaInner ht hs hstr (hmeta h2).1 (hmeta h2).2 ..
  | removeMeta h2 _ =>
    exact removeMeta_rule (P := Grows t) (fun h1 => absurd h1 (hmeta h2).2) fun _ =>
      grows_innerRemoveMeta ht hs hstr (hmeta h2).2

theorem given_buildOp {op : Op} (hop : BuildOp op) : op.Given Shaped := by
  cases hop with
  | insertSubNode hc => exact shaped_newTree hc
  | insertIntLeaf hc => exact (sized_new hc).2
  | insertStrLeaf hc => exact (sized_new hc).2
  | _ => trivial

/-- In every state of every run, the sizes are right. -/
theorem sized_of_built {root : KnvNode} (h : Built root) : All Sized root ∧ Shaped root := by
  induction h with
  | newTree h => exact ⟨sized_newTree h, shaped_newTree h⟩
  | step _ hop hpath hstr hrun ih =>
    exact sized_runAt _ ih.1 ih.2 (given_buildOp hop) hpath (fun pl t ht h hs => grows_buildOp hop h hs (hstr t ht) pl) hrun
  | insertChild _ _ hpath hstr hrun ih ihc =>
    exact sized_runAt (.insertChild _ true _) ih.1 ih.2 ihc.2 hpath
      (fun pl t ht h hs => grows_insertChild h hs (hstr t ht) ihc.1 ihc.2 _) hrun
  | setValueInt _ hpath hrun ih =>
    exact sized_runAt (.setValueInt _) ih.1 ih.2 trivial hpath (fun pl t _ h _ => grows_setValueInt h _) hrun
  | setTag _ hpath _ hrun ih =>
    exact sized_runAt (.setTag _) ih.1 ih.2 trivial hpath (fun pl t _ h hs => grows_setTag h hs _) hrun

/-- **Incremental sizes are exact.** In every state of every run that builds a tree from `NewTree`, the cached
sizes of every node are those recomputed bottom-up, and `Serialize` into a buffer of `EvaluateSize()`
bytes succeeds and writes exactly that many bytes, the plain encoding of the tree. -/
theorem built_sizes_exact {root : KnvNode} (h : Built root) :
    All (fun n => n.evalSz = n.fullSize ∧ n.evalValSz = n.valSize) root ∧
      ∃ out, root.serialize root.evaluateSize.evalSz.toNat true = .ok out ∧
        (out.length : ℤ) = root.evaluateSize.evalSz ∧ out = root.plain := by
  obtain ⟨hsized, hshaped⟩ := sized_of_built h
  have hexact := Sized.exact hsized hshaped
  have heval := evaluateSize_of_nonneg hshaped.here.evaluated
  have hsz := hexact.here.evalSz
  refine ⟨hexact.imp fun n hn => ⟨hn.evalSz, hn.evalValSz⟩, root.plain, ?_, ?_, rfl⟩
  · rw [heval, hsz, Int.toNat_natCast]
    exact serialize_of_exact hexact hshaped _ (Nat.le_refl _)
  · rw [heval, hsz, length_plain]

/-- A tree with a key, and a number above 127 in it. -/
theorem built_sizes_exact_keyed : ∃ root : KnvNode, root.evalSz = 9 ∧
    All (fun n => n.evalSz = n.fullSize ∧ n.evalValSz = n.valSize) root ∧
      ∃ out, root.serialize root.evaluateSize.evalSz.toNat true = .ok out ∧
        (out.length : ℤ) = root.evaluateSize.evalSz ∧ out = root.plain := by
  obtain ⟨tree, htree⟩ : ∃ n, newTree 12 (some ⟨.string, [65, 66]⟩) = .ok n := ⟨_, rfl⟩
  obtain ⟨leaf, hleaf⟩ : ∃ n, new 11 .varint .string none (some { i64 := 300 }) = .ok n := ⟨_, rfl⟩
  have hstep : Built ((Op.insertChild leaf true true).run {} tree).node :=
    @Built.step tree _ [] _ (.newTree htree) (.insertIntLeaf hleaf) (fun _ h => nomatch h)
      (fun t ht => by cases ht; cases htree; exact fun _ => rfl) rfl
  refine ⟨_, ?_, built_sizes_exact hstep⟩
  cases htree
  cases hleaf
  rfl

end KnvNode

end KnvProto
