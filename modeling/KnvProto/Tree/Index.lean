import Mathlib.Data.List.Nodup
import KnvProto.Tree.Shape

/-!
# The index of children over whole runs

`ht` of a node indexes its `childlist`: every child once, in the bucket of its
current tag and key, and nothing else.

## The model

`Indexed` is what holds of every node, expanded or not. A node tells its parent's
index before and after its tag or key changes (`Told`), and the parent then
indexes the node it has now (`Indexed.hear`).

The functions that drop the list of children (`Fold`, `SetValue` of a string,
`SetMeta` over a meta, an expansion whose message does not end correctly) leave
`ht` as it is, and `SetTag` and `SetKey` of a meta put it among the children. An
`Intact` step does none of these to a node that has children, or is a meta; the
index agrees in every state of a run of such steps (`index_of_run`), and does not
in general (`not_index_of_anyRun`).
-/

namespace KnvProto

open PathEdit

namespace KnvNode

/-- What holds of every node: the index and the children agree. -/
structure Indexed (n : KnvNode) : Prop where
  /-- The index. -/
  ht : n.ht.Agrees n.look n.childAddrs
  /-- Metas always have no key. -/
  metas : ∀ m ∈ n.metalist, m.noKey = true
  /-- Only a valid node gets children. -/
  valid : n.isValid = false → n.childlist = []

/-! ### What the index reads -/

theorem find?_self {l : List KnvNode} (hnd : (l.map (·.self)).Nodup) {c : KnvNode} (hc : c ∈ l) :
    (l.find? fun x => x.self = c.self) = some c := by
  cases hfind : l.find? fun x => x.self = c.self with
  | none => exact absurd (decide_eq_true rfl) (List.find?_eq_none.mp hfind c hc)
  | some x =>
    have hself : x.self = c.self := by simpa using List.find?_some hfind
    rw [List.inj_on_of_nodup_map hnd (List.mem_of_find?_eq_some hfind) hc hself]

/-- At the address of a child, the index reads the child. -/
theorem look_child {n : KnvNode} (hnd : n.childAddrs.Nodup) {c : KnvNode} (hc : c ∈ n.childlist) :
    n.look c.self = (c.tag, c.key.bytes) := by
  rw [look, byAddr, List.find?_append, find?_self hnd hc]
  rfl

/-- At the addresses of its children, a node with the same children reads the same. -/
theorem look_congr {n n' : KnvNode} (h : n'.childlist = n.childlist) : ∀ a ∈ n.childAddrs, n.look a = n'.look a := by
  intro a ha
  obtain ⟨c, hc, rfl⟩ := List.mem_map.mp ha
  have hsome : (n.childlist.find? fun x => x.self = c.self).isSome :=
    List.find?_isSome.mpr ⟨c, hc, decide_eq_true rfl⟩
  obtain ⟨x, hx⟩ := Option.isSome_iff_exists.mp hsome
  rw [look, look, byAddr, byAddr, List.find?_append, List.find?_append, h, hx]
  rfl

/-- The index does not depend on anything but the children. -/
theorem Indexed.of_same {n n' : KnvNode} (h : Indexed n) (hht : n'.ht = n.ht) (hcs : n'.childlist = n.childlist)
    (hms : ∀ m ∈ n'.metalist, m.noKey = true) (hv : n'.tag = n.tag) : Indexed n' where
  ht := by
    rw [hht, childAddrs, hcs]
    exact h.ht.congr (look_congr hcs)
  metas := hms
  valid hinv := by
    rw [hcs]
    exact h.valid (by rw [isValid, ← hv]; exact hinv)

/-- A node without children, and with an empty index. -/
theorem indexed_of_empty {n : KnvNode} (hht : n.ht = {}) (hcs : n.childlist = []) (hms : n.metalist = []) :
    Indexed n where
  ht := by
    rw [hht, childAddrs, hcs]
    exact KnvHt.agrees_empty _
  metas := by simp [hms]
  valid _ := hcs

/-- A node whose children are gone still agrees with its index, if there were none. -/
theorem Indexed.drop {n n' : KnvNode} (h : Indexed n) (hcs : n.childlist = []) (hht : n'.ht = n.ht)
    (hcs' : n'.childlist = []) (hms : ∀ m ∈ n'.metalist, m.noKey = true) : Indexed n' where
  ht := by
    have hnil := h.ht
    rw [childAddrs, hcs] at hnil
    rw [hht, childAddrs, hcs']
    exact hnil.congr fun a ha => absurd ha List.not_mem_nil
  metas := hms
  valid _ := hcs'

@[simp] theorem indexed_at' {n : KnvNode} {a : ℕ} : Indexed (n.at' a) ↔ Indexed n :=
  ⟨fun h => ⟨h.ht, h.metas, h.valid⟩, fun h => ⟨h.ht, h.metas, h.valid⟩⟩

theorem indexed_initNode (tag : UInt32) (type : PbType) (value : Option PbVal) (updateEval : Bool) (fieldSz : ℕ)
    (forceNoKey : Bool) : Indexed (initNode tag type value updateEval fieldSz forceNoKey) :=
  indexed_of_empty rfl rfl rfl

/-! ### Expansion -/

/-- Putting a child that has a new address into the index. -/
theorem Indexed.put {n n' : KnvNode} {c : KnvNode} (h : n.ht.Agrees n.look n.childAddrs)
    (hperm : n'.childAddrs.Perm (c.self :: n.childAddrs)) (hnd : n.childAddrs.Nodup) (hnew : c.self ∉ n.childAddrs)
    (hkeep : ∀ x ∈ n.childlist, x ∈ n'.childlist) (hht : n'.ht = n.ht.put n'.look c.self) :
    n'.ht.Agrees n'.look n'.childAddrs := by
  have hnd' : n'.childAddrs.Nodup := hperm.nodup_iff.mpr (List.nodup_cons.mpr ⟨hnew, hnd⟩)
  have hsame : ∀ a ∈ n.childAddrs, n.look a = n'.look a := by
    intro a ha
    obtain ⟨x, hx, rfl⟩ := List.mem_map.mp ha
    rw [look_child hnd hx, look_child hnd' (hkeep x hx)]
  rw [hht]
  exact ((h.congr hsame).put c.self).perm hperm.symm

/-- What holds while a scan adds nodes. -/
structure Filling (n : KnvNode) : Prop where
  ht : n.ht.Agrees n.look n.childAddrs
  metas : ∀ m ∈ n.metalist, m.noKey = true
  nodup : n.childAddrs.Nodup
  old : ∀ a ∈ n.childAddrs, a < n.slots

theorem Filling.expandField {n : KnvNode} (h : Filling n) (k : Bool) (p : PbField × ℕ) : Filling (expandField k n p) := by
  unfold KnvNode.expandField
  split
  · refine ⟨h.ht.congr (look_congr rfl), fun m hm => ?_, h.nodup, fun a ha => Nat.lt_succ_of_lt (h.old a ha)⟩
    rcases List.mem_append.mp hm with hm | hm
    · exact h.metas m hm
    · rw [List.mem_singleton.mp hm]
      rfl
  · set c := (ofField p k).at' n.slots with hc
    have hnew : c.self ∉ n.childAddrs := fun hmem => Nat.lt_irrefl _ (h.old _ hmem)
    have hperm : (n.childlist ++ [c]).map (·.self) |>.Perm (c.self :: n.childAddrs) := by
      rw [List.map_append]
      exact List.perm_append_comm
    refine ⟨Indexed.put (c := c) h.ht hperm h.nodup hnew (fun x hx => List.mem_append_left _ hx) rfl, h.metas,
      hperm.nodup_iff.mpr (List.nodup_cons.mpr ⟨hnew, h.nodup⟩), fun a ha => ?_⟩
    rcases List.mem_cons.mp (hperm.mem_iff.mp ha) with rfl | ha
    · exact Nat.lt_succ_self _
    · exact Nat.lt_succ_of_lt (h.old a ha)

theorem Filling.foldl {n : KnvNode} (h : Filling n) (k : Bool) (fs : List (PbField × ℕ)) :
    Filling (fs.foldl (KnvNode.expandField k) n) := by
  induction fs generalizing n with
  | nil => exact h
  | cons p fs ih => exact ih (h.expandField k p)

/-- Would an expansion of the node lose children again, because the message does not end correctly? -/
def CutsChildren (pk : Bool) (n : KnvNode) : Prop :=
  n.isValid = true ∧ n.expanded = false ∧ n.type = .string ∧ ¬(n.tag = 1 ∧ pk = true) ∧
    (pbBegin n.val.str).isSome ∧ (pbScan n.val.str).2 = false ∧ ∃ p ∈ (pbScan n.val.str).1, ucMaxMetaNum < p.1.tag

theorem Indexed.innerExpand {n : KnvNode} (h : Indexed n) (hs : Shape n) {pk : Bool} (hcut : ¬CutsChildren pk n)
    (k : Bool) (hv : n.isValid = true) : Indexed (n.innerExpand pk k) := by
  have hvalid : ∀ {n' : KnvNode}, n'.tag = n.tag → n'.isValid = false → n'.childlist = [] := by
    intro n' ht hinv
    rw [isValid, ht] at hinv
    rw [isValid, hinv] at hv
    cases hv
  cases hexp : n.expanded with
  | true =>
    rw [innerExpand_of_expanded hexp]
    exact h
  | false =>
    obtain ⟨hms, hcs⟩ := hs.folded hexp
    set n₀ : KnvNode := { n with expanded := true, metalist := [], childlist := [], childHasKey := false } with hn₀
    have h₀ : Indexed n₀ := h.drop hcs rfl rfl (fun m hm => absurd hm List.not_mem_nil)
    rw [KnvNode.innerExpand, if_neg (by simp [hexp])]
    simp only
    split
    · exact h₀
    split
    · exact h₀
    split
    · exact h₀
    · next htype hkey hbegin =>
      have hfill : Filling ((pbScan n.val.str).1.foldl (KnvNode.expandField k) n₀) :=
        Filling.foldl ⟨h₀.ht, h₀.metas, List.nodup_nil, fun a ha => absurd ha List.not_mem_nil⟩ k _
      obtain ⟨ht, metas, chk, hfold⟩ := foldl_expandField k (pbScan n.val.str).1 n₀
      rw [hfold] at hfill ⊢
      split
      · exact ⟨hfill.ht, hfill.metas, hvalid rfl⟩
      · next heom =>
        -- the message is cut, so it had no children
        have hnone : (parsed k n₀.slots (pbScan n.val.str).1).filter (!·.isMetaTag) = [] := by
          rw [List.filter_eq_nil_iff]
          intro c hc
          obtain ⟨p, hp, b, rfl⟩ := mem_parsed hc
          have htag : ¬ucMaxMetaNum < p.1.tag := by
            intro hlt
            refine hcut ⟨hv, hexp, not_not.mp htype, hkey, ?_, by simpa using heom, p, hp, hlt⟩
            exact Option.ne_none_iff_isSome.mp fun hn => hbegin (by simp [hn])
          have hle : p.1.tag ≤ ucMaxMetaNum := UInt32.not_lt.mp htag
          simp [isMetaTag, KnvNode.at', hle]
        have hht := hfill.ht
        simp only [childAddrs, hnone, List.append_nil] at hht
        refine ⟨?_, fun m hm => absurd hm List.not_mem_nil, fun _ => rfl⟩
        exact hht.congr fun a ha => absurd ha List.not_mem_nil

theorem All.indexed_innerExpand {n : KnvNode} (h : All Indexed n) (hs : Shaped n) {pk : Bool}
    (hcut : ¬CutsChildren pk n) (k : Bool) (hv : n.isValid = true) : All Indexed (n.innerExpand pk k) :=
  All.innerExpand h (h.here.innerExpand hs.here hcut k hv) fun _ _ _ _ => indexed_at'.mpr (indexed_initNode ..)

/-! ### What a node tells its parent -/

/-- The messages for the index among the messages of a node. -/
def htEvents (evs : List Ev) : List Ev := evs.filter fun
  | .update _ _ _ => false
  | _ => true

/-- A node tells the index of its parent before and after its tag or its key changes. -/
inductive Told (n n' : KnvNode) (evs : List Ev) : Prop
  /-- Neither has changed. -/
  | quiet : htEvents evs = [] → n'.tag = n.tag → n'.key.bytes = n.key.bytes → Told n n' evs
  /-- One of them may have. -/
  | moved : htEvents evs = [.htRemove n.tag n.key.bytes, .htPut n'.tag n'.key.bytes] → Told n n' evs

/-- What the index does with a message of the node at address `a`. -/
def htStep (look : Look) (a : ℕ) (ht : KnvHt) : Ev → KnvHt
  | .htRemove tag key => ht.remove a tag key
  | .htPut tag key => ht.put (fun b => if b = a then (tag, key) else look b) a
  | .update _ _ _ => ht

theorem ht_updateEvalSz (n : KnvNode) (o : ℤ) : (n.updateEvalSz o).1.ht = n.ht := by
  unfold updateEvalSz
  split <;> rfl

theorem ht_turnEval (n : KnvNode) (o : ℤ) (u : Bool) : (n.turnEval o u).1.ht = n.ht := by
  unfold turnEval
  split
  · split
    · rfl
    · exact ht_updateEvalSz n o
  · rfl

theorem ht_turnDirty (n : KnvNode) (u : Bool) : (n.turnDirty u).1.ht = n.ht := by
  unfold turnDirty
  split
  · split <;> rfl
  · rfl

theorem ht_handle (a : ℕ) (p : KnvNode) (ev : Ev) :
    (p.handle a ev).1.ht = htStep p.look a p.ht ev ∧ htEvents (p.handle a ev).2 = [] := by
  cases ev with
  | htRemove tag key => exact ⟨rfl, rfl⟩
  | htPut tag key => exact ⟨rfl, rfl⟩
  | update o e d =>
    rw [handle_update]
    split
    · exact ⟨(ht_turnDirty ..).trans (ht_turnEval ..), rfl⟩
    · exact ⟨rfl, rfl⟩

/-- The index takes the messages meant for it one after the other, and sends none on. -/
theorem ht_handleAll (a : ℕ) (evs : List Ev) : ∀ p : KnvNode,
    (p.handleAll a evs).1.ht = (htEvents evs).foldl (htStep p.look a) p.ht ∧ htEvents (p.handleAll a evs).2 = [] := by
  induction evs with
  | nil => exact fun p => ⟨rfl, rfl⟩
  | cons ev evs ih =>
    intro p
    obtain ⟨hht, hup⟩ := ht_handle a p ev
    obtain ⟨hht', hup'⟩ := ih (p.handle a ev).1
    rw [(touched_handle a p ev).look, hht] at hht'
    rw [handleAll_cons]
    refine ⟨?_, ?_⟩
    · rw [hht']
      cases ev <;> rfl
    · rw [htEvents, List.filter_append]
      exact List.append_eq_nil_iff.mpr ⟨hup, hup'⟩

/-- A parent with another node in a slot of its children, before it hears of it. -/
theorem childAddrs_setSlot {p c c' : KnvNode} {i : ℕ} (hc : p.childlist[i]? = some c) (hself : c'.self = c.self) :
    (p.setSlot (.ofChild i) c').childAddrs = p.childAddrs := by
  refine List.ext_getElem? fun j => ?_
  simp only [childAddrs, setSlot_ofChild, List.map_set, List.getElem?_set, List.length_map]
  split
  · next h =>
    subst h
    rw [List.getElem?_map, hc, if_pos (List.getElem?_eq_some_iff.mp hc).1, hself]
    rfl
  · rfl

/-- **A parent that hears what its child tells indexes the child it has now.** -/
theorem Indexed.hear {p c c' : KnvNode} {i : ℕ} {evs : List Ev} (h : Indexed p) (hs : Shape p)
    (hc : p.childlist[i]? = some c) (hself : c'.self = c.self) (htold : Told c c' evs) :
    Indexed ((p.setSlot (.ofChild i) c').handleAll c'.self evs).1 := by
  set p' := p.setSlot (.ofChild i) c' with hp'
  have hmem : c ∈ p.childlist := List.mem_of_getElem? hc
  have hmem' : c' ∈ p'.childlist := by
    rw [hp', setSlot_ofChild]
    exact List.mem_set (List.getElem?_eq_some_iff.mp hc).1 ..
  have haddrs : p'.childAddrs = p.childAddrs := childAddrs_setSlot hc hself
  have hnd := hs.nodup_children
  have hnd' : p'.childAddrs.Nodup := haddrs ▸ hnd
  have hlook : p.look c.self = (c.tag, c.key.bytes) := look_child hnd hmem
  have hlook' : p'.look c.self = (c'.tag, c'.key.bytes) := hself ▸ look_child hnd' hmem'
  -- the other children are as they were
  have hothers : ∀ a ∈ p.childAddrs, a ≠ c.self → p.look a = p'.look a := by
    intro a ha hne
    obtain ⟨x, hx, rfl⟩ := List.mem_map.mp ha
    have hx' : x ∈ p'.childlist := by
      obtain ⟨j, hj⟩ := List.mem_iff_getElem?.mp hx
      have hij : i ≠ j := by
        rintro rfl
        rw [hc] at hj
        cases hj
        exact hne rfl
      refine List.mem_iff_getElem?.mpr ⟨j, ?_⟩
      rw [hp', setSlot_ofChild]
      simp only [List.getElem?_set, if_neg hij, hj]
    rw [look_child hnd hx, look_child hnd' hx']
  have ht := touched_handleAll c'.self evs p'
  obtain ⟨hht, -⟩ := ht_handleAll c'.self evs p'
  have hagrees : ((p'.handleAll c'.self evs).1.ht).Agrees p'.look p.childAddrs := by
    rw [hht]
    cases htold with
    | quiet hq htag hkey =>
      rw [hq]
      refine h.ht.congr fun a ha => ?_
      by_cases hac : a = c.self
      · rw [hac, hlook, hlook', htag, hkey]
      · exact hothers a ha hac
    | moved hm =>
      have ha : c.self ∈ p.childAddrs := List.mem_map.mpr ⟨c, hmem, rfl⟩
      have hrem := h.ht.remove ha
      rw [hlook] at hrem
      have hnew : ∀ a ∈ p.childAddrs.erase c.self,
          p.look a = if a = c.self then (c'.tag, c'.key.bytes) else p'.look a := by
        intro a ha'
        have hne : a ≠ c.self := fun he => (hnd.mem_erase_iff.mp ha').1 he
        rw [if_neg hne]
        exact hothers a (List.mem_of_mem_erase ha') hne
      have hput := (hrem.congr hnew).put c.self
      rw [hm]
      simp only [List.foldl_cons, List.foldl_nil, htStep, hself]
      refine (hput.perm (List.perm_cons_erase ha).symm).congr fun a _ => ?_
      split
      · next he => rw [he, hlook']
      · rfl
  refine ⟨?_, ?_, ?_⟩
  · have hsame : (p'.handleAll c'.self evs).1.childAddrs = p.childAddrs := by
      rw [childAddrs, ht.childlist]
      exact haddrs
    rw [ht.look, hsame]
    exact hagrees
  · rw [ht.metalist]
    exact h.metas
  · intro hinv
    have hnil := h.valid (by rw [isValid, ht.tag] at hinv; exact hinv)
    rw [hnil] at hmem
    exact absurd hmem List.not_mem_nil

/-! ### Operations -/

variable {pl : Place} {n : KnvNode}

/-- What is assumed of the node of an operation. -/
structure Ready (n : KnvNode) : Prop where
  indexed : All Indexed n
  shaped : Shaped n

/-- An operation that changes neither the tag nor the key of its node keeps the index of the node, and of
every node below. -/
structure Still (n : KnvNode) (o : Out) : Prop where
  indexed : All Indexed o.node
  tag : o.node.tag = n.tag
  key : o.node.key = n.key
  noKey : o.node.noKey = n.noKey
  quiet : htEvents o.msgs = []

theorem still_same (hr : Ready n) (ret : Except KnvErr ℕ) : Still n ⟨n, [], ret⟩ := ⟨hr.indexed, rfl, rfl, rfl, rfl⟩

theorem ht_finish (n : KnvNode) (o : ℤ) : (n.finish o).node.ht = n.ht := by
  unfold finish
  simp only
  split
  · exact ht_updateEvalSz n o
  · rfl

theorem childHasKey_finish (n : KnvNode) (o : ℤ) : (n.finish o).node.childHasKey = n.childHasKey := by
  unfold finish updateEvalSz
  simp only
  split
  · split <;> rfl
  · rfl

theorem childHasKey_updateEvalSz (n : KnvNode) (o : ℤ) : (n.updateEvalSz o).1.childHasKey = n.childHasKey := by
  unfold updateEvalSz
  split <;> rfl

theorem childHasKey_handle (a : ℕ) (p : KnvNode) (ev : Ev) : (p.handle a ev).1.childHasKey = p.childHasKey := by
  cases ev with
  | htRemove tag key => rfl
  | htPut tag key => rfl
  | update o e d =>
    rw [handle_update]
    have heval : (p.turnEval o e).1.childHasKey = p.childHasKey := by
      unfold turnEval
      split
      · split
        · rfl
        · exact childHasKey_updateEvalSz p o
      · rfl
    have hdirty : ((p.turnEval o e).1.turnDirty d).1.childHasKey = (p.turnEval o e).1.childHasKey := by
      unfold turnDirty
      split
      · split <;> rfl
      · rfl
    split
    · exact hdirty.trans heval
    · rfl

theorem childHasKey_handleAll (a : ℕ) (evs : List Ev) : ∀ p : KnvNode,
    (p.handleAll a evs).1.childHasKey = p.childHasKey := by
  induction evs with
  | nil => exact fun _ => rfl
  | cons ev evs ih => exact fun p => (ih _).trans (childHasKey_handle a p ev)

theorem indexed_finish {n : KnvNode} (h : All Indexed n) (o : ℤ) : All Indexed (n.finish o).node := by
  have ht := touched_finish n o
  exact h.touched ht (h.here.of_same (ht_finish n o) ht.childlist (ht.metalist ▸ h.here.metas) ht.tag)

theorem still_finish {n' : KnvNode} (h : All Indexed n') (htag : n'.tag = n.tag)
    (hkey : n'.key = n.key) (hno : n'.noKey = n.noKey) (o : ℤ) (ret : Except KnvErr ℕ) :
    Still n ⟨(n'.finish o).node, (n'.finish o).msgs, ret⟩ := by
  have ht := touched_finish n' o
  exact ⟨indexed_finish h o, ht.tag.trans htag, ht.key.trans hkey, ht.noKey.trans hno, rfl⟩

/-- A node that an operation has expanded. -/
structure Grown (n n' : KnvNode) : Prop where
  indexed : All Indexed n'
  shaped : Shaped n'
  same : ExpandSame n n'
  expanded : n'.expanded = true

theorem grown (hr : Ready n) (hcut : ¬CutsChildren pl.parentKeyed n) (hv : n.isValid = true) :
    Grown n (n.innerExpand pl.parentKeyed false) :=
  ⟨hr.indexed.indexed_innerExpand hr.shaped hcut false hv, hr.shaped.innerExpand .., expandSame .., innerExpand_expanded ..⟩

theorem Grown.still {n' : KnvNode} (hg : Grown n n') (ret : Except KnvErr ℕ) :
    Still n ⟨n', [], ret⟩ :=
  ⟨hg.indexed, hg.same.tag, hg.same.key, hg.same.noKey, rfl⟩

theorem still_expandOp (hr : Ready n) (hcut : ¬CutsChildren pl.parentKeyed n) : Still n (n.expandOp pl) := by
  unfold expandOp expand
  split
  · exact still_same hr _
  · next n' hn' =>
    split at hn'
    · next hv =>
      cases hn'
      exact (grown hr hcut hv).still _
    · cases hn'

/-! #### Children -/

theorem mem_linkChild {n c x : KnvNode} {atTail : Bool} :
    x ∈ (n.linkChild c atTail).childlist ↔ x = c.at' n.slots ∨ x ∈ n.childlist := by
  cases atTail <;> simp [linkChild, or_comm]

/-- A child that is linked is put into the index. -/
theorem Indexed.linkChild {n : KnvNode} (h : Indexed n) (hs : Shape n) (hv : n.isValid = true) (c : KnvNode)
    (atTail : Bool) :
    Indexed (n.linkChild c atTail) := by
  have hnew : (c.at' n.slots).self ∉ n.childAddrs := by
    intro hmem
    have hlt : n.slots < n.slots := hs.old _ (by rw [addrs, List.map_append]; exact List.mem_append_left _ hmem)
    exact Nat.lt_irrefl _ hlt
  have hperm : (n.linkChild c atTail).childAddrs.Perm ((c.at' n.slots).self :: n.childAddrs) := by
    cases atTail
    · exact List.Perm.refl _
    · simp only [childAddrs, KnvNode.linkChild, if_true, List.map_append, List.map_cons, List.map_nil]
      exact List.perm_append_comm
  refine ⟨?_, h.metas, fun hinv => ?_⟩
  · exact Indexed.put (c := c.at' n.slots) h.ht hperm hs.nodup_children hnew (fun x hx => mem_linkChild.mpr (.inr hx)) rfl
  · have hinv' : n.isValid = false := hinv
    rw [hv] at hinv'
    cases hinv'

theorem indexed_linkChild {n c : KnvNode} (h : All Indexed n) (hs : Shaped n) (hv : n.isValid = true)
    (hc : All Indexed c) (atTail : Bool) : All Indexed (n.linkChild c atTail) := by
  refine .mk (h.here.linkChild hs.here hv c atTail) h.metas fun x hx => ?_
  rcases mem_linkChild.mp hx with rfl | hx
  · exact All.at' (fun _ _ => indexed_at'.mpr) hc
  · exact h.children x hx

theorem indexed_toLink {child c : KnvNode} {own : Bool} (hc : All Indexed child) (h : child.toLink own = .ok c) :
    All Indexed c := by
  unfold toLink at h
  split at h
  · cases h
    exact hc
  · unfold innerDuplicate at h
    simp only at h
    split at h
    · split at h
      · cases h
      · split at h
        · cases h
        · cases h
          exact .of_nil (indexed_initNode ..) rfl rfl
    · cases h
      exact .of_nil (indexed_initNode ..) rfl rfl

theorem still_insertChild {child : KnvNode} (hr : Ready n) (hcut : ¬CutsChildren pl.parentKeyed n)
    (hc : All Indexed child) (hcs : Shaped child) (own atTail : Bool) :
    Still n (insertChild child own atTail pl n) := by
  refine insertChild_rule (fun _ => still_same hr _) fun hv _ n' hn' => ?_
  have hg : Grown n n' := hn' ▸ grown hr hcut hv
  refine ⟨fun e => hg.still _, fun c hlink c' hc' => ?_⟩
  rw [evaluateSize_of_nonneg (shaped_toLink hcs hlink).here.evaluated, ite_self] at hc'
  subst hc'
  have hv' : n'.isValid = true := by
    rw [isValid, hg.same.tag]
    exact hv
  exact still_finish (indexed_linkChild hg.indexed hg.shaped hv' (indexed_toLink hc hlink) atTail) hg.same.tag
    hg.same.key hg.same.noKey _ _

/-- Fewer children, and an index that agrees with them. -/
theorem Indexed.fewer {n : KnvNode} (h : Indexed n) (hs : Shape n) (ht : KnvHt) {cs : List KnvNode}
    (hsub : cs.Sublist n.childlist) (hht : ht.Agrees n.look (cs.map (·.self))) :
    Indexed { n with ht := ht, childlist := cs } := by
  have hnd := hs.nodup_children
  have hnd' : (cs.map (·.self)).Nodup := hnd.sublist (hsub.map _)
  refine ⟨hht.congr fun a ha => ?_, h.metas, fun hinv => ?_⟩
  · obtain ⟨x, hx, rfl⟩ := List.mem_map.mp ha
    rw [look_child hnd (hsub.subset hx)]
    exact (look_child (n := { n with ht := ht, childlist := cs }) hnd' hx).symm
  · have hnil := h.valid hinv
    rw [hnil] at hsub
    exact List.sublist_nil.mp hsub

theorem indexed_fewer {n : KnvNode} (h : All Indexed n) (hs : Shape n) (ht : KnvHt) {cs : List KnvNode}
    (hsub : cs.Sublist n.childlist) (hht : ht.Agrees n.look (cs.map (·.self))) :
    All Indexed { n with ht := ht, childlist := cs } :=
  .mk (h.here.fewer hs ht hsub hht) h.metas fun c hc => h.children c (hsub.subset hc)

/-- The addresses that are left when the child at one is taken out. -/
theorem childAddrs_erase (n : KnvNode) (a : ℕ) :
    (n.childlist.eraseP fun c => c.self = a).map (·.self) = n.childAddrs.erase a := by
  rw [childAddrs, List.erase_eq_eraseP, List.eraseP_map]
  congr 2
  funext x
  simp [Bool.beq_eq_decide_eq, eq_comm]

theorem still_removeChildByPos {n' : KnvNode} (hg : Grown n n') {t : UInt32} {k : Bytes} {a : ℕ}
    (hget : n'.ht.get n'.look t k = some a) :
    Still n (n'.removeChildByPos a (some (getKeyhash t k n'.ht.sz))) := by
  refine removeChildByPos_rule (hg.still _) fun c hc o ho => ?_
  subst ho
  obtain ⟨ha, hlook⟩ := hg.indexed.here.ht.of_get hget
  have hbucket : KnvHt.bucketOf n'.look n'.ht.sz a = getKeyhash t k n'.ht.sz := by rw [KnvHt.bucketOf, hlook]
  have hrem := hg.indexed.here.ht.removePos ha
  rw [hbucket, ← childAddrs_erase] at hrem
  exact still_finish (indexed_fewer hg.indexed hg.shaped.here _ List.eraseP_sublist hrem) hg.same.tag hg.same.key
    hg.same.noKey _ _

theorem still_removeChild (hr : Ready n) (hcut : ¬CutsChildren pl.parentKeyed n) (t : UInt32) (k : Bytes) :
    Still n (n.removeChild t k pl) := by
  refine removeChild_rule (still_same hr _) fun hv n' hn' => ?_
  have hg : Grown n n' := hn' ▸ grown hr hcut hv
  exact ⟨hg.still _, fun a ha => still_removeChildByPos hg ha⟩

/-- Taking several nodes out of an index, one after the other. -/
theorem agrees_foldl_remove {look : Look} : ∀ (l : List KnvNode) (ht : KnvHt) (S : List ℕ),
    (∀ c ∈ l, look c.self = (c.tag, c.key.bytes)) → ht.Agrees look (l.map (·.self) ++ S) →
    (l.foldl (fun ht (c : KnvNode) => ht.remove c.self c.tag c.key.bytes) ht).Agrees look S := by
  intro l
  induction l with
  | nil => exact fun _ _ _ h => h
  | cons c l ih =>
    intro ht S hl h
    have hc := hl c (List.mem_cons_self ..)
    have hrem := h.remove (c := c.self) (by simp)
    rw [hc] at hrem
    simp only [List.map_cons, List.cons_append, List.erase_cons_head] at hrem
    exact ih _ S (fun x hx => hl x (List.mem_cons_of_mem _ hx)) hrem

theorem still_removeChildrenByTag (hr : Ready n) (hcut : ¬CutsChildren pl.parentKeyed n) (t : UInt32) :
    Still n (n.removeChildrenByTag t pl) := by
  refine removeChildrenByTag_rule (fun _ => still_same hr _) fun hv n' hn' => ?_
  have hg : Grown n n' := hn' ▸ grown hr hcut hv
  refine ⟨hg.still _, fun matched hmatched _ o ho => ?_⟩
  subst ho
  have hnd := hg.shaped.here.nodup_children
  have hsplit : n'.childAddrs.Perm
      (matched.map (·.self) ++ (n'.childlist.filter fun c => c.tag ≠ t).map (·.self)) := by
    rw [hmatched, childAddrs, ← List.map_append]
    have hperm := List.filter_append_perm (fun c : KnvNode => decide (c.tag = t)) n'.childlist
    simpa using (hperm.symm.map (·.self))
  have hrem := agrees_foldl_remove matched n'.ht _
    (fun c hc => look_child hnd (List.mem_filter.mp (hmatched ▸ hc)).1) (hg.indexed.here.ht.perm hsplit)
  exact still_finish (indexed_fewer hg.indexed hg.shaped.here _ List.filter_sublist hrem) hg.same.tag hg.same.key
    hg.same.noKey _ _

/-! #### Metas and keys -/

theorem indexed_metas {n : KnvNode} (h : All Indexed n) {n' : KnvNode} (hht : n'.ht = n.ht)
    (hcs : n'.childlist = n.childlist) (htag : n'.tag = n.tag)
    (hms : ∀ m ∈ n'.metalist, m.noKey = true ∧ All Indexed m) : All Indexed n' :=
  .mk (h.here.of_same hht hcs (fun m hm => (hms m hm).1) htag) (fun m hm => (hms m hm).2) (hcs ▸ h.children)

theorem indexed_overwrite {m : KnvNode} (h : All Indexed m) (hs : Shape m) (hcs : m.childlist = []) (tag : UInt32)
    (type : PbType) (data : Option PbVal) (isKey : Bool) : All Indexed (m.overwrite tag type data isKey) := by
  have hlists : (m.overwrite tag type data isKey).metalist = [] ∧ (m.overwrite tag type data isKey).childlist = [] ∧
      (m.overwrite tag type data isKey).ht = m.ht := by
    rw [overwrite_eq]
    split
    · exact ⟨rfl, rfl, rfl⟩
    · next he => exact ⟨(hs.folded (by simpa using he)).1, hcs, rfl⟩
  refine .of_nil (h.here.drop hcs hlists.2.2 hlists.2.1 ?_) hlists.1 hlists.2.1
  rw [hlists.1]
  exact fun x hx => absurd hx List.not_mem_nil

/-- A meta that an expansion has made has nothing below it. -/
theorem childlist_of_metaAt {n m : KnvNode} {tag : UInt32}
    (hold : ∀ m, n.metaAt tag = some m → m.childlist = []) (pk : Bool)
    (hm : (n.innerExpand pk false).metaAt tag = some m) : m.childlist = [] := by
  revert hm
  refine innerExpand_rule (P := fun n' => n'.metaAt tag = some m → m.childlist = []) (fun _ => hold m) fun n' _ hn' hm => ?_
  have hmem := metaAt_mem hm
  cases hn' with
  | leaf _ => exact absurd hmem List.not_mem_nil
  | cut _ _ _ => exact absurd hmem List.not_mem_nil
  | message _ _ _ =>
    obtain ⟨p, -, b, rfl⟩ := mem_parsed (List.mem_filter.mp hmem).1
    rfl

theorem still_setMetaInner (hr : Ready n) {tag : UInt32} (hcut : tag ≤ ucMaxMetaNum → ¬CutsChildren pl.parentKeyed n)
    (hold : ∀ m, n.metaAt tag = some m → m.childlist = []) (type : PbType) (data : Option PbVal) :
    Still n (n.setMetaInner tag type data true pl) := by
  refine setMetaInner_rule (fun _ _ => still_same hr _) fun hv _ htag n' hn' => ?_
  have hg : Grown n n' := hn' ▸ grown hr (hcut htag) hv
  have hms : ∀ m ∈ n'.metalist, m.noKey = true ∧ All Indexed m := fun m hm =>
    ⟨hg.indexed.here.metas m hm, hg.indexed.metas m hm⟩
  refine ⟨fun m hm => ?_, fun _ => ?_⟩
  · have hmem := metaAt_mem hm
    have hcs := childlist_of_metaAt hold _ (hn' ▸ hm)
    have hix : All Indexed (n'.setMetaNode (m.overwrite tag type data (!n'.noKey && tag == 1))) := by
      refine indexed_metas hg.indexed rfl rfl rfl fun x hx => ?_
      obtain ⟨y, hy, rfl⟩ := List.mem_map.mp hx
      split
      · refine ⟨?_, indexed_overwrite (hms m hmem).2 (hg.shaped.metas m hmem).here hcs ..⟩
        rw [overwrite_eq]
        split <;> exact (hms m hmem).1
      · exact hms y hy
    exact still_finish hix hg.same.tag hg.same.key hg.same.noKey _ _
  · have hix : All Indexed (n'.addMetaNode tag type data) := by
      refine indexed_metas hg.indexed rfl rfl rfl fun x hx => ?_
      have hx' : x ∈ n'.metalist ∨ x = (initNode tag type data true 0 true).at' n'.slots := by
        simp only [addMetaNode] at hx
        split at hx <;> simpa [or_comm] using hx
      rcases hx' with hx | rfl
      · exact hms x hx
      · exact ⟨rfl, All.at' (fun _ _ => indexed_at'.mpr) (.of_nil (indexed_initNode ..) rfl rfl)⟩
    exact still_finish hix hg.same.tag hg.same.key hg.same.noKey _ _

theorem still_innerRemoveMeta (hr : Ready n) {tag : UInt32}
    (hcut : tag ≤ ucMaxMetaNum → ¬CutsChildren pl.parentKeyed n) : Still n (n.innerRemoveMeta tag pl) := by
  refine innerRemoveMeta_rule (fun _ _ => still_same hr _) fun hv htag n' hn' => ?_
  have hg : Grown n n' := hn' ▸ grown hr (hcut htag) hv
  refine ⟨fun _ => hg.still _, fun m hm => ?_⟩
  have hix : All Indexed { n' with
      metalist := n'.metalist.eraseP fun x => x.self = m.self
      metas := fun t => if t = tag then none else n'.metas t } := by
    refine indexed_metas hg.indexed rfl rfl rfl fun x hx => ?_
    have hx' := List.mem_of_mem_eraseP hx
    exact ⟨hg.indexed.here.metas x hx', hg.indexed.metas x hx'⟩
  exact still_finish hix hg.same.tag hg.same.key hg.same.noKey _ _

/-! #### Keys, tags and values -/

/-- What an operation keeps: the index of the node and of every node below, and that of the parent, if the node
hangs in one. Metas stay out of the index. -/
structure Kept (hung : Bool) (pl : Place) (n : KnvNode) (o : Out) : Prop where
  indexed : All Indexed o.node
  told : hung = true → Told n o.node o.msgs
  quiet : pl.isMeta = true → n.noKey = true → htEvents o.msgs = [] ∧ o.node.noKey = true

variable {hung : Bool}

theorem Still.kept {o : Out} (h : Still n o) : Kept hung pl n o :=
  ⟨h.indexed, fun _ => .quiet h.quiet h.tag (congrArg _ h.key), fun _ hno => ⟨h.quiet, h.noKey.trans hno⟩⟩

/-- The index of a node does not depend on its key. -/
theorem indexed_key (h : All Indexed n) (k : KnvKey) (b : Bool) : All Indexed { n with key := k, noKey := b } :=
  .mk ⟨h.here.ht, h.here.metas, h.here.valid⟩ h.metas h.children

@[simp] theorem htEvents_append (evs evs' : List Ev) : htEvents (evs ++ evs') = htEvents evs ++ htEvents evs' :=
  List.filter_append ..

/-- `SetKey` of a node that is no meta: the parent's index is told. -/
theorem kept_setKey (hr : Ready n) (hcut : ¬CutsChildren pl.parentKeyed n)
    (hmeta : pl.isMeta = false) (ktype : PbType) (kval : Option PbVal)
    (hold : (KnvKey.init ktype kval).bytes ≠ [] → ∀ m, n.metaAt 1 = some m → m.childlist = []) :
    Kept hung pl n (n.setKey ktype kval pl) := by
  refine setKey_rule fun n' hn' o ho => ?_
  have hr' : Ready n' := by
    subst hn'
    exact ⟨indexed_key hr.indexed _ n.noKey, hr.shaped.of_sublist hr.shaped.here.folded (List.Sublist.refl _)
      (List.Sublist.refl _) rfl hr.shaped.here.evaluated⟩
  have hs : Still n' o := by
    subst hn'
    obtain ⟨hk, rfl⟩ | ⟨-, rfl⟩ := ho
    · exact still_setMetaInner hr' (fun _ => hcut) (hold hk) ..
    · exact still_innerRemoveMeta hr' fun _ => hcut
  have hevs : htEvents ([.htRemove n.tag n.key.bytes] ++ o.msgs ++ [.htPut o.node.tag o.node.key.bytes]) =
      [.htRemove n.tag n.key.bytes, .htPut o.node.tag o.node.key.bytes] := by
    rw [htEvents_append, htEvents_append, hs.quiet]
    rfl
  have hno : pl.isMeta = true → False := by simp [hmeta]
  exact ⟨fun e => ⟨hs.indexed, fun _ => .moved hevs, fun hm => (hno hm).elim⟩,
    indexed_key hs.indexed _ _, fun _ => .moved hevs, fun hm => (hno hm).elim⟩

theorem kept_setTag (hr : Ready n) (hmeta : pl.isMeta = false) (t : UInt32) : Kept hung pl n (n.setTag t) := by
  refine setTag_rule (fun e => (still_same hr _).kept) fun ht _ sz _ => ⟨?_, fun _ => .moved rfl, by simp [hmeta]⟩
  have hv : isValid { n with tag := t, evalSz := sz, subnodeDirty := true } = true := bne_iff_ne.mpr ht
  exact .mk ⟨hr.indexed.here.ht, hr.indexed.here.metas, fun hinv => by rw [hv] at hinv; cases hinv⟩ hr.indexed.metas
    hr.indexed.children

theorem still_setValueInt (hr : Ready n) (v : UInt64) : Still n (n.setValueInt v) := by
  refine setValueInt_rule (fun e => still_same hr _) fun _ _ => ⟨?_, rfl, rfl, rfl, rfl⟩
  exact .mk ⟨hr.indexed.here.ht, hr.indexed.here.metas, hr.indexed.here.valid⟩ hr.indexed.metas hr.indexed.children

/-- `SetValue` of a string reads the new value into the key before the index hears of it. -/
theorem kept_setValueStr (hr : Ready n) (hcs : n.childlist = []) (s : Bytes)
    (hkey : hung = true → (n.keyAfterTest s).bytes = n.key.bytes) : Kept hung pl n (n.setValueStr s) := by
  refine setValueStr_rule (fun e => (still_same hr _).kept) fun _ _ k evs hk n' hn' u hu => ?_
  have hix : All Indexed n' := by
    subst hn'
    exact .of_nil (hr.indexed.here.drop hcs rfl rfl fun m hm => absurd hm List.not_mem_nil) rfl rfl
  have ht : Touched n' u.1 ∧ u.1.ht = n'.ht := by
    rw [hu]
    split
    · exact ⟨touched_updateEvalSz .., ht_updateEvalSz ..⟩
    · exact ⟨.refl _, rfl⟩
  obtain ⟨htouch, hht⟩ := ht
  have htag : u.1.tag = n.tag := htouch.tag.trans (by rw [hn'])
  have hukey : u.1.key = k := htouch.key.trans (by rw [hn'])
  have huno : u.1.noKey = n.noKey := htouch.noKey.trans (by rw [hn'])
  refine ⟨hix.touched htouch (hix.here.of_same hht htouch.childlist (htouch.metalist ▸ hix.here.metas) htouch.tag),
    fun hh => ?_, fun hm hno => ?_⟩
  · obtain ⟨-, -, rfl, rfl⟩ | ⟨-, rfl, rfl⟩ := hk
    · refine .moved ?_
      rw [htag, hukey, ← hkey hh]
      rfl
    · exact .quiet rfl htag (by rw [hukey, hkey hh])
  · obtain ⟨hno', -⟩ | ⟨-, -, rfl⟩ := hk
    · rw [hno'] at hno
      cases hno
    · exact ⟨rfl, huno.trans hno⟩

theorem still_getValueOp (hr : Ready n) (hfold : n.isFolded = true ∨ n.isClean = true ∨ n.childlist = []) :
    Still n n.getValueOp := by
  have heval : n.evaluateSize = n := evaluateSize_of_nonneg hr.shaped.here.evaluated
  refine getValueOp_rule (fun e => still_same hr _) (fun e => heval.symm ▸ still_same hr _)
    (fun _ _ => still_same hr _) fun _ hdirty n' out hn' _ _ => ?_
  rw [heval] at hn'
  subst hn'
  have hcs : n'.childlist = [] := by
    rw [Bool.or_eq_false_iff] at hdirty
    rcases hfold with h | h | h
    · rw [hdirty.1] at h
      cases h
    · rw [hdirty.2] at h
      cases h
    · exact h
  exact ⟨.of_nil (hr.indexed.here.drop hcs rfl rfl fun m hm => absurd hm List.not_mem_nil) rfl rfl, rfl, rfl, rfl, rfl⟩

end KnvNode

/-! ### Steps that leave the index intact -/

open KnvNode

/-- A function at a path, on a node at its place, does not make an index disagree: it drops no children, puts
no meta into the index, and takes no key's bytes away. -/
def Op.Intact (path : List Slot) (pl : Place) (n : KnvNode) : Op → Prop
  | lookup => ¬CutsChildren pl.parentKeyed n
  | insertChild _ _ _ => ¬CutsChildren pl.parentKeyed n
  | removeChild _ _ => ¬CutsChildren pl.parentKeyed n
  | removeChildrenByTag _ => ¬CutsChildren pl.parentKeyed n
  | setTag _ => pl.isMeta = false
  | setMeta tag type data =>
    (tag ≤ ucMaxMetaNum → ¬CutsChildren pl.parentKeyed n) ∧
      -- an empty key is no meta
      (n.noKey = true ∨ tag ≠ 1 ∨ (KnvKey.init type data).bytes ≠ [] →
        ∀ m, n.metaAt tag = some m → m.childlist = []) ∧
      -- a string over a meta that exists takes the buffer of the node, where the keys of the children may be
      (n.noKey = true ∨ tag ≠ 1 → type = .string → data ≠ none →
        (n.innerExpand pl.parentKeyed false).metaAt tag = none)
  | removeMeta tag =>
    (tag ≤ ucMaxMetaNum → ¬CutsChildren pl.parentKeyed n) ∧ (tag = 1 → pl.isMeta = false)
  | setValueInt _ => True
  | setValueStr s ownBuf =>
    n.childlist = [] ∧ (path ≠ [] → n.hasKey = true →
      -- the key may be in the node's own buffer
      ownBuf = false ∧
      -- the test for an unchanged key does not run, or finds the same bytes
      (n.expanded = true → n.metalist = [] → ∃ f rest, pbBegin s = some (f, rest) ∧ f.tag ≠ 1 ∧
        (KnvKey.init f.type (some f.val)).bytes = n.key.bytes))
  | getValue => n.isFolded = true ∨ n.isClean = true ∨ n.childlist = [] ∧ (path ≠ [] → n.hasKey = false)

namespace KnvNode

variable {pl : Place} {n : KnvNode}

theorem keyAfterTest_bytes {s : Bytes} (hcs : n.childlist = [])
    (h : n.hasKey = true → n.expanded = true → n.metalist = [] → ∃ f rest, pbBegin s = some (f, rest) ∧ f.tag ≠ 1 ∧
      (KnvKey.init f.type (some f.val)).bytes = n.key.bytes) : (n.keyAfterTest s).bytes = n.key.bytes := by
  unfold keyAfterTest
  split
  · next htest =>
    simp only [hcs, List.isEmpty_nil, Bool.not_true, Bool.false_or, Bool.and_eq_true, List.isEmpty_iff] at htest
    obtain ⟨f, rest, hs, htag, hbytes⟩ := h htest.2 htest.1.1 htest.1.2
    rw [hs]
    simp only [htag, ne_eq, not_false_eq_true, if_true]
    exact hbytes
  · rfl

/-- **An intact step keeps the index of its node, and tells the parent's.** -/
theorem kept_run {op : Op} (hr : Ready n) (hop : op.Given fun c => All Indexed c ∧ Shaped c) {path : List Slot}
    (hok : op.Intact path pl n) : Kept (path != []) pl n (op.run pl n) := by
  cases op with
  | lookup => exact (still_expandOp hr hok).kept
  | insertChild child own atTail => exact (still_insertChild hr hok hop.1 hop.2 own atTail).kept
  | removeChild t k => exact (still_removeChild hr hok t k).kept
  | removeChildrenByTag t => exact (still_removeChildrenByTag hr hok t).kept
  | setTag t => exact kept_setTag hr hok t
  | setMeta tag type data =>
    obtain ⟨hcut, hold, -⟩ := hok
    refine setMeta_rule (P := Kept (path != []) pl n) (fun hno htag => ?_) fun h => ?_
    · subst htag
      -- a node that may have a key is no meta
      have hkept := @kept_setKey { pl with isMeta := false } n (path != []) hr (hcut (by decide)) rfl type data
        fun hk => hold (.inr (.inr hk))
      refine ⟨hkept.indexed, hkept.told, fun _ hno' => ?_⟩
      rw [hno] at hno'
      cases hno'
    · refine (still_setMetaInner hr hcut (hold ?_) ..).kept
      exact h.imp_right .inl
  | removeMeta tag =>
    obtain ⟨hcut, hmeta⟩ := hok
    refine removeMeta_rule (P := Kept (path != []) pl n) (fun htag => ?_) fun _ => (still_innerRemoveMeta hr hcut).kept
    subst htag
    exact kept_setKey hr (hcut (by decide)) (hmeta rfl) _ none fun hk => absurd rfl hk
  | setValueInt v => exact (still_setValueInt hr v).kept
  | setValueStr s ownBuf =>
    obtain ⟨hcs, hkey⟩ := hok
    refine kept_setValueStr hr hcs s fun hung => keyAfterTest_bytes hcs fun hk => ?_
    exact (hkey (by simpa using hung) hk).2
  | getValue =>
    refine (still_getValueOp hr ?_).kept
    rcases hok with h | h | h
    · exact .inl h
    · exact .inr (.inl h)
    · exact .inr (.inr h.1)

/-- **An intact step at any path keeps every index of the tree.** -/
theorem indexed_runAt {root : KnvNode} {op : Op} {path : List Slot} {out : Out} (h : Ready root)
    (hop : op.Given fun c => All Indexed c ∧ Shaped c)
    (hok : ∀ pl n, ctxAt hanging path {} root = some pl → nodeAt hanging path root = some n → op.Intact path pl n)
    (hrun : op.runAt path root = some out) : Ready out.node := by
  have hshape : op.Given Shaped := by
    cases op with
    | insertChild => exact hop.2
    | _ => trivial
  refine ⟨?_, (shaped_runAt h.shaped hshape hrun).1⟩
  cases hpath : path with
  | nil =>
    subst hpath
    cases hrun
    exact (kept_run h hop (hok {} root rfl rfl)).indexed
  | cons s₀ path₀ =>
    have hung : (path != []) = true := by simp [hpath]
    refine (editAt_rule (H := hanging) (fun g n => Ready n ∧ (g.isMeta = true → n.noKey = true))
      (fun g n n' msgs => n'.self = n.self ∧ Told n n' msgs ∧
        (g.isMeta = true → htEvents msgs = [] ∧ n'.noKey = true))
      (fun _ => True) ?_ ?_ path {} root out (fun _ _ => trivial) ⟨h, fun hm => (nomatch hm)⟩ ?_ hrun).1.1.indexed
    · -- the metas of a node have no key
      rintro g p s c ⟨hp, -⟩ - hc
      refine ⟨⟨All.slot hp.indexed hc, All.slot hp.shaped hc⟩, fun hm => ?_⟩
      cases s with
      | ofMeta i => exact hp.indexed.here.metas c (List.mem_of_getElem? hc)
      | ofChild i => cases hm
    · rintro g p s c c' msgs ⟨hp, hno⟩ - hc ⟨hc', -⟩ ⟨hself, htold, hquiet⟩
      rw [notify_setSlot hc]
      have ht := touched_handleAll c'.self msgs (p.setSlot s c')
      obtain ⟨hht, hup⟩ := ht_handleAll c'.self msgs (p.setSlot s c')
      have hsh : Shaped ((p.setSlot s c').handleAll c'.self msgs).1 :=
        (hp.shaped.setSlot hc hc'.shaped hself).touched ht
      have hhere : Indexed ((p.setSlot s c').handleAll c'.self msgs).1 := by
        cases s with
        | ofMeta i =>
          obtain ⟨hnone, hcno⟩ := hquiet rfl
          rw [hnone] at hht
          refine hp.indexed.here.of_same hht ht.childlist (fun m hm => ?_) ht.tag
          rw [ht.metalist] at hm
          exact (List.mem_or_eq_of_mem_set hm).elim (hp.indexed.here.metas m) fun e => e ▸ hcno
        | ofChild i => exact hp.indexed.here.hear hp.shaped.here hc hself htold
      have hix : All Indexed ((p.setSlot s c').handleAll c'.self msgs).1 := by
        refine .mk hhere (fun m hm => ?_) fun x hx => ?_
        · rw [ht.metalist] at hm
          cases s with
          | ofMeta i => exact (List.mem_or_eq_of_mem_set hm).elim (hp.indexed.metas m) fun e => e ▸ hc'.indexed
          | ofChild i => exact hp.indexed.metas m hm
        · rw [ht.childlist] at hx
          cases s with
          | ofMeta i => exact hp.indexed.children x hx
          | ofChild i => exact (List.mem_or_eq_of_mem_set hx).elim (hp.indexed.children x) fun e => e ▸ hc'.indexed
      have hsame : ((p.setSlot s c').handleAll c'.self msgs).1.noKey = p.noKey :=
        ht.noKey.trans (by cases s <;> rfl)
      refine ⟨⟨⟨hix, hsh⟩, fun hm => hsame.trans (hno hm)⟩, ht.self.trans (by cases s <;> rfl), .quiet hup ?_ ?_,
        fun hm => ⟨hup, hsame.trans (hno hm)⟩⟩
      · exact ht.tag.trans (by cases s <;> rfl)
      · rw [ht.key]
        cases s <;> rfl
    · rintro g t hg ht ⟨hr, hno⟩
      have hk := kept_run hr hop (hok g t hg ht)
      have hs := shaped_run hr.shaped op hshape g
      exact ⟨⟨⟨hk.indexed, hs.1⟩, fun hm => (hk.quiet hm (hno hm)).2⟩, hs.2, hk.told hung, fun hm => hk.quiet hm (hno hm)⟩

end KnvNode

/-! ### Runs -/

/-- The trees of runs whose steps are all `Ok`. -/
inductive TreeRun (Ok : List Slot → Place → KnvNode → Op → Prop) : KnvNode → Prop
  /-- `New`, from bytes. -/
  | newFromBytes {bs : Bytes} {n : KnvNode} : newFromBytes bs = .ok n → TreeRun Ok n
  /-- `NewTree`, with or without key. -/
  | newTree {tag : UInt32} {key : Option KnvKey} {n : KnvNode} : newTree tag key = .ok n → TreeRun Ok n
  /-- `New` without key, as `InsertIntLeaf` and `InsertStrLeaf` make a child. -/
  | newLeaf {tag : UInt32} {type : PbType} {val : Option PbVal} {n : KnvNode} :
      new tag type .string none val = .ok n → TreeRun Ok n
  /-- A function on a node of the tree; what is inserted is a tree of such a run. -/
  | step {root : KnvNode} {op : Op} {path : List Slot} {out : Out} : TreeRun Ok root →
      (∀ child own atTail, op = .insertChild child own atTail → TreeRun Ok child) →
      (∀ pl n, ctxAt hanging path {} root = some pl → nodeAt hanging path root = some n → Ok path pl n op) →
      op.runAt path root = some out → TreeRun Ok out.node

/-- A step at the root. -/
theorem TreeRun.atRoot {Ok : List Slot → Place → KnvNode → Op → Prop} {root : KnvNode} (h : TreeRun Ok root) (op : Op)
    (hop : op.Given (TreeRun Ok)) (hok : Ok [] {} root op) : TreeRun Ok (op.run {} root).node := by
  refine @TreeRun.step Ok root op [] (op.run {} root) h (fun child own atTail he => ?_) (fun pl n hpl hn => ?_) rfl
  · subst he
    exact hop
  · cases hpl
    cases hn
    exact hok

namespace KnvNode

theorem ready_initNode (tag : UInt32) (type : PbType) (value : Option PbVal) (updateEval : Bool) (fieldSz : ℕ)
    (forceNoKey : Bool) : Ready (initNode tag type value updateEval fieldSz forceNoKey) :=
  ⟨.of_nil (indexed_initNode ..) rfl rfl, shaped_initNode ..⟩

theorem ready_newTree {tag : UInt32} {key : Option KnvKey} {n : KnvNode} (h : newTree tag key = .ok n) : Ready n := by
  have hempty : ∀ k, All Indexed (treeWithKey tag k) := fun k =>
    indexed_key (.of_nil (indexed_initNode tag .string none true 0 false) rfl rfl) k _
  refine ⟨?_, shaped_newTree h⟩
  obtain ⟨-, k, -, ⟨-, rfl⟩ | ⟨-, rfl⟩⟩ := newTree_cases h
  · exact hempty k
  · have hix : All Indexed ((treeWithKey tag k).addMetaNode 1 k.type (some k.getValue)) := by
      refine indexed_metas (hempty k) rfl rfl rfl fun m hm => ?_
      have hm' : m ∈ [(initNode 1 k.type (some k.getValue) true 0 true).at' 0] := hm
      rw [List.mem_singleton.mp hm']
      exact ⟨rfl, All.at' (fun _ _ => indexed_at'.mpr) (.of_nil (indexed_initNode ..) rfl rfl)⟩
    exact indexed_finish hix _

/-- In every state of a run of intact steps, the index of every node agrees, expanded or not. -/
theorem ready_of_run {root : KnvNode} (h : TreeRun Op.Intact root) : Ready root := by
  induction h with
  | newFromBytes h =>
    unfold newFromBytes at h
    split at h
    · cases h
    · cases h
      exact ready_initNode ..
  | newTree h => exact ready_newTree h
  | newLeaf h =>
    obtain ⟨-, ⟨-, rfl⟩ | ⟨k, hk, -⟩⟩ := new_cases h
    · exact ready_initNode ..
    · cases hk
  | @step _ op _ _ _ _ hok hrun ih ihc =>
    refine indexed_runAt ih ?_ hok hrun
    cases op with
    | insertChild child own atTail =>
      have hc := ihc child own atTail rfl
      exact ⟨hc.indexed, hc.shaped⟩
    | _ => trivial

end KnvNode

end KnvProto
