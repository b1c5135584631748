import KnvProto.Node.Update
import KnvProto.Tree.Identity

/-!
# Procedures that walk a tree

`UpdateSubTree` and `DeleteSubTree` are sequences of steps somewhere in the tree: they
expand, set metas and values, insert, and remove (`WalkStep`), and every parent hears of
every step. What a step keeps they keep, whatever they are given and whatever they return.

## The model

`Terms` says where a walk may go, and what it may take over from: an update takes over from
the nodes of its tree, as it reaches them (`Part`). When the terms are strict, it writes
only to messages that keep no value beside what is below them (`Writable`); trees where
only messages have nodes below them remain such trees.
-/

namespace KnvProto

open PathEdit

namespace KnvNode

/-! ### A node in its slot -/

theorem setSlot_setSlot (p : KnvNode) (s : Slot) (c c' : KnvNode) : (p.setSlot s c).setSlot s c' = p.setSlot s c' := by
  cases s <;> simp

theorem setSlot_self {p c : KnvNode} {s : Slot} (h : p.slot s = some c) : p.setSlot s c = p := by
  obtain ⟨d, ms, cs⟩ := p
  cases s with
  | ofMeta i =>
    obtain ⟨hi, rfl⟩ := List.getElem?_eq_some_iff.mp h
    exact congrArg (fun l => KnvNode.mk d l cs) (List.set_getElem_self hi)
  | ofChild i =>
    obtain ⟨hi, rfl⟩ := List.getElem?_eq_some_iff.mp h
    exact congrArg (KnvNode.mk d ms) (List.set_getElem_self hi)

/-- A node that is replaced by one with its address is not seen at other addresses. -/
theorem find?_set_ne {c c' : KnvNode} {b : ℕ} (hc : c.self ≠ b) (hc' : c'.self ≠ b) : ∀ {l : List KnvNode} {i : ℕ},
    l[i]? = some c → (l.set i c').find? (fun x => x.self = b) = l.find? fun x => x.self = b := by
  intro l
  induction l with
  | nil => exact fun h => by cases h
  | cons x l ih =>
    intro i h
    cases i with
    | zero =>
      rw [List.getElem?_cons_zero, Option.some.injEq] at h
      subst h
      rw [List.set_cons_zero, List.find?_cons_of_neg (by simpa using hc'), List.find?_cons_of_neg (by simpa using hc)]
    | succ i =>
      rw [List.set_cons_succ, List.find?_cons, List.find?_cons, ih h]

theorem look_setSlot {p c c' : KnvNode} {s : Slot} {b : ℕ} (hc : p.slot s = some c) (hself : c'.self = c.self)
    (hb : b ≠ c.self) : (p.setSlot s c').look b = p.look b := by
  have hb' : c'.self ≠ b := fun h => hb (h.symm.trans hself)
  have hfind : (p.setSlot s c').byAddr b = p.byAddr b := by
    cases s with
    | ofMeta i =>
      rw [byAddr, byAddr, setSlot_ofMeta, List.find?_append, List.find?_append, find?_set_ne (Ne.symm hb) hb' hc]
    | ofChild i =>
      rw [byAddr, byAddr, setSlot_ofChild, List.find?_append, List.find?_append, find?_set_ne (Ne.symm hb) hb' hc]
  rw [look, look, hfind]

theorem updateEvalSz_setSlot (p : KnvNode) (s : Slot) (c : KnvNode) (o : ℤ) :
    (p.setSlot s c).updateEvalSz o = ((p.updateEvalSz o).1.setSlot s c, (p.updateEvalSz o).2) := by
  unfold updateEvalSz
  by_cases ho : o = 0
  · rw [if_pos ho, if_pos ho]
  · rw [if_neg ho, if_neg ho]
    cases s <;> rfl

theorem turnEval_setSlot (p : KnvNode) (s : Slot) (c : KnvNode) (o : ℤ) (e : Bool) :
    (p.setSlot s c).turnEval o e = ((p.turnEval o e).1.setSlot s c, (p.turnEval o e).2) := by
  have hsz : (p.setSlot s c).evalSz = p.evalSz := by cases s <;> rfl
  rw [turnEval, turnEval, updateEvalSz_setSlot, hsz]
  split
  · split <;> rfl
  · rfl

theorem turnDirty_setSlot (p : KnvNode) (s : Slot) (c : KnvNode) (d : Bool) :
    (p.setSlot s c).turnDirty d = ((p.turnDirty d).1.setSlot s c, (p.turnDirty d).2) := by
  have hdirty : (p.setSlot s c).subnodeDirty = p.subnodeDirty := by cases s <;> rfl
  rw [turnDirty, turnDirty, hdirty]
  split
  · split
    · rfl
    · cases s <;> rfl
  · rfl

/-- What a parent makes of messages does not depend on the node in the slot, but on its address. -/
theorem handle_setSlot {p c c' : KnvNode} {s : Slot} (hc : p.slot s = some c) (hself : c'.self = c.self) (ev : Ev) :
    (p.setSlot s c').handle c.self ev = ((p.handle c.self ev).1.setSlot s c', (p.handle c.self ev).2) := by
  cases ev with
  | htRemove tag key => cases s <;> rfl
  | htPut tag key =>
    have hlook : (fun b => if b = c.self then (tag, key) else (p.setSlot s c').look b) =
        fun b => if b = c.self then (tag, key) else p.look b := by
      funext b
      by_cases hb : b = c.self
      · rw [if_pos hb, if_pos hb]
      · rw [if_neg hb, if_neg hb, look_setSlot hc hself hb]
    have hht : (p.setSlot s c').ht = p.ht := by cases s <;> rfl
    rw [handle, handle, hlook, hht]
    cases s <;> rfl
  | update o e d =>
    rw [handle_update, handle_update, turnEval_setSlot]
    simp only [turnDirty_setSlot]
    split <;> rfl

theorem handleAll_setSlot {c c' : KnvNode} {s : Slot} (hself : c'.self = c.self) (evs : List Ev) : ∀ {p : KnvNode},
    p.slot s = some c →
    (p.setSlot s c').handleAll c.self evs = ((p.handleAll c.self evs).1.setSlot s c', (p.handleAll c.self evs).2) := by
  induction evs with
  | nil => exact fun _ => rfl
  | cons ev evs ih =>
    intro p hc
    have hback : (p.handle c.self ev).1.slot s = some c := by
      have ht := touched_handle c.self p ev
      cases s with
      | ofMeta i => exact (congrArg (·[i]?) ht.metalist).trans hc
      | ofChild i => exact (congrArg (·[i]?) ht.childlist).trans hc
    rw [handleAll_cons, handleAll_cons, handle_setSlot hc hself, ih hback]

theorem handleAll_append (a : ℕ) (evs evs' : List Ev) : ∀ p : KnvNode, p.handleAll a (evs ++ evs') =
    (((p.handleAll a evs).1.handleAll a evs').1, (p.handleAll a evs).2 ++ ((p.handleAll a evs).1.handleAll a evs').2) := by
  induction evs with
  | nil => exact fun _ => rfl
  | cons ev evs ih =>
    intro p
    rw [List.cons_append, handleAll_cons, handleAll_cons, ih, List.append_assoc]

theorem slot_handleAll (a : ℕ) (evs : List Ev) (p : KnvNode) (s : Slot) : (p.handleAll a evs).1.slot s = p.slot s := by
  have ht := touched_handleAll a evs p
  cases s with
  | ofMeta i => exact congrArg (·[i]?) ht.metalist
  | ofChild i => exact congrArg (·[i]?) ht.childlist

theorem self_setSlot (p : KnvNode) (s : Slot) (c : KnvNode) : (p.setSlot s c).self = p.self := by cases s <;> rfl

/-- **A parent knows its nodes by their addresses.** -/
theorem lawful_hanging : Lawful hanging fun n n' => n'.self = n.self where
  refl _ := rfl
  trans h h' := h'.trans h
  back := by
    intro p s c c' msgs hc _
    rw [notify_setSlot hc]
    exact (slot_handleAll ..).trans (slot_setSlot hc)
  ctx := by
    intro p s c c' msgs hc _
    rw [notify_setSlot hc]
    have ht := touched_handleAll c'.self msgs (p.setSlot s c')
    have hkey : ((p.setSlot s c').handleAll c'.self msgs).1.key = p.key := ht.key.trans (by cases s <;> rfl)
    cases s <;> exact congrArg (fun k : KnvKey => Place.mk (k.bytes != []) _) hkey
  up := by
    intro p s c c' msgs hc _
    rw [notify_setSlot hc]
    exact (touched_handleAll ..).self.trans (self_setSlot ..)
  quiet := by
    intro p s c hc
    rw [notify_setSlot hc, setSlot_self hc]
    rfl
  append := by
    intro p s c c' c'' msgs msgs' hc hself hself'
    have hc' : (p.setSlot s c').slot s = some c' := slot_setSlot hc
    have hback : ((p.setSlot s c').handleAll c'.self msgs).1.slot s = some c' := (slot_handleAll ..).trans hc'
    rw [notify_setSlot hc, notify_setSlot hc, notify_setSlot hback]
    show (p.setSlot s c'').handleAll c''.self (msgs ++ msgs') = _
    rw [← setSlot_setSlot p s c' c'', hself', handleAll_append, handleAll_setSlot hself' msgs hc']

/-! ### Steps of a walk -/

/-- What an update reaches of its tree `u`, which has the place `q`: each part at its place. -/
inductive Part (u : KnvNode) (q : Place) : Place → KnvNode → Prop
  /-- The tree itself. -/
  | root : Part u q q u
  /-- After an expansion, with keys or without. -/
  | opened {pl : Place} {x : KnvNode} (k : Bool) : Part u q pl x → Part u q pl (x.innerExpand pl.parentKeyed k)
  /-- A child. -/
  | child {pl : Place} {x s : KnvNode} : Part u q pl x → s ∈ x.childlist → Part u q ⟨x.key.bytes != [], false⟩ s

/-- Only a message has nodes below it when it is expanded. -/
def Message (n : KnvNode) : Prop := n.expanded = true → n.metalist ≠ [] ∨ n.childlist ≠ [] → n.type = .string

/-- A message that keeps no value beside what is below it. -/
structure Writable (n : KnvNode) : Prop where
  type : n.type = .string
  expanded : n.expanded = true
  value : n.metalist ≠ [] ∨ n.childlist ≠ [] ∨ n.val.str = []

/-- Where a walk may go, and what it may take over from. -/
structure Terms where
  /-- The slots of the nodes that it goes into. -/
  via : Slot → Prop
  /-- Are metas and children given to writable nodes only? -/
  strict : Prop
  /-- The nodes, at their places, that metas, values and children are taken over from. -/
  src : Place → KnvNode → Prop

/-- What a procedure that walks a tree does to the node it is at. -/
inductive WalkStep (T : Terms) : Place → KnvNode → KnvNode → List Ev → Prop
  /-- An expansion, with keys or without. -/
  | expand {pl : Place} {n : KnvNode} (k : Bool) : WalkStep T pl n (n.innerExpand pl.parentKeyed k) []
  /-- A meta is set, which is not the key. -/
  | setMeta {pl q : Place} {n x m : KnvNode} : T.src q x → m ∈ x.metalist → 1 < m.tag →
      (T.strict → Writable n) →
      WalkStep T pl n (n.setMetaInner m.tag m.type (some m.val) true pl).node
        (n.setMetaInner m.tag m.type (some m.val) true pl).msgs
  /-- The value is set. -/
  | setValue {pl q : Place} {n x : KnvNode} {v : PbVal} : T.src q x → x.getValue.2 = .ok v →
      WalkStep T pl n (n.setValue x.type v).node (n.setValue x.type v).msgs
  /-- A copy of a child is inserted into a node that is expanded. -/
  | insert {pl q : Place} {n x s : KnvNode} : T.src q x → s ∈ x.childlist → n.expanded = true →
      (T.strict → Writable n) →
      WalkStep T pl n (innerInsertChild s false true true n).node (innerInsertChild s false true true n).msgs
  /-- The children with a tag are removed. -/
  | removeByTag {pl : Place} {n : KnvNode} (t : UInt32) :
      WalkStep T pl n (n.removeChildrenByTag t pl).node (n.removeChildrenByTag t pl).msgs
  /-- A child is removed from a node that is expanded. -/
  | remove {pl : Place} {n : KnvNode} (a : ℕ) (pos : Option ℕ) : n.expanded = true →
      WalkStep T pl n (n.removeChildByPos a pos).node (n.removeChildByPos a pos).msgs

/-- What a step of a walk leaves alone: where the node is, and what it is. -/
structure SameRole (n n' : KnvNode) : Prop where
  self : n'.self = n.self
  tag : n'.tag = n.tag
  type : n'.type = n.type
  noKey : n'.noKey = n.noKey

theorem SameRole.refl (n : KnvNode) : SameRole n n := ⟨rfl, rfl, rfl, rfl⟩

theorem SameRole.trans {n n' n'' : KnvNode} (h : SameRole n n') (h' : SameRole n' n'') : SameRole n n'' :=
  ⟨h'.self.trans h.self, h'.tag.trans h.tag, h'.type.trans h.type, h'.noKey.trans h.noKey⟩

theorem Touched.role {n n' : KnvNode} (h : Touched n n') : SameRole n n' := ⟨h.self, h.tag, h.type, h.noKey⟩

theorem ExpandSame.role {n n' : KnvNode} (h : ExpandSame n n') : SameRole n n' := ⟨h.self, h.tag, h.type, h.noKey⟩

theorem SameRole.finish {n n' : KnvNode} (h : SameRole n n') (o : ℤ) : SameRole n (n'.finish o).node :=
  h.trans (touched_finish n' o).role

/-- The rule for `InnerInsertChild`, where the parents are told. -/
theorem innerInsertChild_rule {P : Out → Prop} {child n : KnvNode} {own atTail : Bool}
    (hfail : ∀ e, P ⟨n, [], .error e⟩)
    (hset : ∀ c, child.toLink own = .ok c → ∀ c', c' = (if 0 ≤ n.evalSz then c.evaluateSize else c) →
      P ((n.linkChild c' atTail).finish c'.evalSz)) : P (innerInsertChild child own true atTail n) := by
  unfold innerInsertChild
  cases hc : child.toLink own with
  | error e =>
    rw [toLink] at hc
    simp only [Bool.not_true, hc]
    exact hfail _
  | ok c =>
    have h := hset c hc _ rfl
    rw [toLink] at hc
    simp only [Bool.not_true, hc, Bool.false_or, Bool.false_eq_true, if_false]
    simpa using h

theorem WalkStep.role {T : Terms} {pl : Place} {n n' : KnvNode} {msgs : List Ev} (h : WalkStep T pl n n' msgs) :
    SameRole n n' := by
  have hopen := (expandSame pl.parentKeyed false n).role
  cases h with
  | expand k => exact (expandSame ..).role
  | setMeta =>
    refine setMetaInner_rule (P := fun o => SameRole n o.node) (fun _ _ => .refl n) fun _ _ _ m hm => ?_
    subst hm
    refine ⟨fun _ _ => SameRole.finish ?_ _, fun _ => SameRole.finish ?_ _⟩
    all_goals exact ⟨hopen.self, hopen.tag, hopen.type, hopen.noKey⟩
  | setValue =>
    unfold KnvNode.setValue
    split
    · refine setValueStr_rule (P := fun o => SameRole n o.node) (fun _ => .refl n) fun _ _ _ _ _ m hm u hu => ?_
      have hrole : SameRole n m := by
        subst hm
        exact ⟨rfl, rfl, rfl, rfl⟩
      subst hu
      split
      · exact hrole.trans (touched_updateEvalSz _ _).role
      · exact hrole
    · exact setValueInt_rule (P := fun o => SameRole n o.node) (fun _ => .refl n) fun _ _ => ⟨rfl, rfl, rfl, rfl⟩
  | insert =>
    refine innerInsertChild_rule (P := fun o => SameRole n o.node) (fun _ => .refl n) fun _ _ _ _ => SameRole.finish ?_ _
    exact ⟨rfl, rfl, rfl, rfl⟩
  | removeByTag t =>
    refine removeChildrenByTag_rule (P := fun o => SameRole n o.node) (fun _ => .refl n) fun _ m hm => ?_
    subst hm
    refine ⟨hopen, fun _ _ _ o ho => ?_⟩
    rw [ho]
    refine SameRole.finish ?_ _
    exact ⟨hopen.self, hopen.tag, hopen.type, hopen.noKey⟩
  | remove a pos _ =>
    refine removeChildByPos_rule (P := fun o => SameRole n o.node) (.refl n) fun _ _ o ho => ?_
    rw [ho]
    refine SameRole.finish ?_ _
    exact ⟨rfl, rfl, rfl, rfl⟩

/-- A walk from a node, at its place. -/
abbrev Walk (T : Terms) : Place → KnvNode → KnvNode → List Ev → Prop := Edits hanging T.via (WalkStep T)

variable {T : Terms} {pl q : Place} {n n' x : KnvNode} {msgs : List Ev}

/-- **A walk leaves a node in its place, and what it is.** -/
theorem Walk.role (h : Walk T pl n n' msgs) : SameRole n n' := by
  refine (Edits.link (fun _ _ => True) (fun _ n n' _ => SameRole n n') (fun _ n => .refl n)
    (fun _ _ _ _ _ _ h h' => h.trans h') (fun _ _ _ _ _ _ _ => trivial)
    (fun _ p s c c' msgs _ _ hc _ _ => ⟨trivial, ?_⟩) (fun _ _ _ _ _ hstep => ⟨trivial, hstep.role⟩) h trivial).2
  rw [notify_setSlot hc]
  exact .trans (by cases s <;> exact ⟨rfl, rfl, rfl, rfl⟩) (touched_handleAll ..).role

/-- A function that walks, at a path, is a walk of the whole tree. -/
theorem Walk.of_editAt {path : List Slot} {f : Place → KnvNode → Out} {out : Out} (hpath : ∀ s ∈ path, T.via s)
    (hout : editAt hanging f path pl n = some out)
    (hf : ∀ pl' t, ctxAt hanging path pl n = some pl' → nodeAt hanging path n = some t →
      Walk T pl' t (f pl' t).node (f pl' t).msgs) : Walk T pl n out.node out.msgs :=
  Edits.of_editAt lawful_hanging (fun _ _ _ _ hstep => hstep.role.self) hpath hout hf

/-! ### What an update can do -/

/-- A node as it is looked into: at the last level it is expanded without keys. -/
theorem getChildNum_open {last k : Bool} {n : KnvNode} (htag : n.tag ≠ 0) :
    (if last then n.innerExpand k true else n).getChildNum k =
      (n.innerExpand k last, (n.innerExpand k last).childNum.toNat) := by
  have hv : n.isValid = true := by simp [isValid, htag]
  cases last with
  | true =>
    rw [if_pos rfl, getChildNum, innerExpand_of_expanded (innerExpand_expanded k true n), ite_self]
  | false => rw [if_neg Bool.false_ne_true, getChildNum, if_pos hv]

theorem childNum_innerExpand (pk k : Bool) (n : KnvNode) :
    (n.innerExpand pk k).childNum.toNat = (n.innerExpand pk k).childlist.length := by
  rw [childNum, innerExpand_expanded, if_pos rfl, Int.toNat_natCast]

/-- An update of a node that is the same node: it takes the value, or the content. -/
theorem updateSubTreeLevels_succ {order : List UInt32 → List UInt32} {levels : ℕ} {updKeyed : Bool} {u n : KnvNode}
    {pl : Place} (h0 : u.tag ≠ 0) (htag : n.tag = u.tag) (hkey : n.key = u.key) {last : Bool}
    (hlast : last = (levels == 0)) :
    updateSubTreeLevels order (levels + 1) updKeyed u pl n =
      if (u.innerExpand updKeyed last).childlist = [] then
        (if last then n.innerExpand pl.parentKeyed true else n).takeValue (u.innerExpand updKeyed last)
      else if (n.innerExpand pl.parentKeyed last).childlist = [] then
        (n.innerExpand pl.parentKeyed last).takeValue (u.innerExpand updKeyed last)
      else takeContent order (updateSubTreeLevels order levels (u.key.bytes != [])) last pl
        (u.innerExpand updKeyed last) (n.innerExpand pl.parentKeyed last) := by
  have hsame : ¬(n.tag ≠ u.tag ∨ n.key ≠ u.key) := by simp [htag, hkey]
  have hukey : (u.innerExpand updKeyed last).key = u.key := (expandSame ..).key
  unfold updateSubTreeLevels
  rw [if_neg h0, if_neg hsame]
  simp only [← hlast, getChildNum_open h0, getChildNum_open (htag ▸ h0), childNum_innerExpand, hukey,
    List.length_eq_zero_iff]

/-- The rule for an update of a level: nothing happens, or the node takes the value, or the content. -/
theorem updateSubTreeLevels_rule {P : Out → Prop} {order : List UInt32 → List UInt32} {levels : ℕ} {updKeyed : Bool}
    {u n : KnvNode} {pl : Place} (hbad : u.tag = 0 → P (n.fail (-1) "bad argument"))
    (hother : n.tag ≠ u.tag ∨ n.key ≠ u.key → P ⟨n, [], .ok 0⟩)
    (hvalue : u.tag ≠ 0 → n.tag = u.tag → n.key = u.key → ∀ last, last = (levels == 0) →
      ∀ n', n' = n ∧ last = false ∨ n' = n.innerExpand pl.parentKeyed last →
      P (n'.takeValue (u.innerExpand updKeyed last)))
    (hcontent : u.tag ≠ 0 → n.tag = u.tag → n.key = u.key → ∀ last, last = (levels == 0) →
      (u.innerExpand updKeyed last).childlist ≠ [] → (n.innerExpand pl.parentKeyed last).childlist ≠ [] →
      P (takeContent order (updateSubTreeLevels order levels (u.key.bytes != [])) last pl (u.innerExpand updKeyed last)
        (n.innerExpand pl.parentKeyed last))) :
    P (updateSubTreeLevels order (levels + 1) updKeyed u pl n) := by
  by_cases h0 : u.tag = 0
  · unfold updateSubTreeLevels
    rw [if_pos h0]
    exact hbad h0
  by_cases hne : n.tag ≠ u.tag ∨ n.key ≠ u.key
  · unfold updateSubTreeLevels
    rw [if_neg h0, if_pos hne]
    exact hother hne
  obtain ⟨htag, hkey⟩ : n.tag = u.tag ∧ n.key = u.key := by rwa [not_or, not_not, not_not] at hne
  obtain ⟨last, hlast⟩ : ∃ last, last = (levels == 0) := ⟨_, rfl⟩
  have hvalue := hvalue h0 htag hkey last hlast
  rw [updateSubTreeLevels_succ h0 htag hkey hlast]
  split
  · cases last with
    | true => exact hvalue _ (.inr rfl)
    | false => exact hvalue n (.inl ⟨rfl, rfl⟩)
  next hu =>
  split
  · exact hvalue _ (.inr rfl)
  next hn => exact hcontent h0 htag hkey last hlast hu hn

/-! ### Messages -/

theorem message_of_nil (hms : n.metalist = []) (hcs : n.childlist = []) : All Message n :=
  .of_nil (fun _ h => absurd h (by simp [hms, hcs])) hms hcs

theorem Message.innerExpand (h : All Message n) (pk k : Bool) : All Message (n.innerExpand pk k) := by
  refine All.innerExpand h ?_ fun p _ b k' => (message_of_nil rfl rfl).here
  refine innerExpand_rule (P := Message) (fun _ => h.here) fun n' _ hn' => ?_
  cases hn' with
  | leaf _ => exact (message_of_nil rfl rfl).here
  | cut _ _ _ => exact (message_of_nil rfl rfl).here
  | message _ _ _ ht => exact fun _ _ => ht

/-- The end of a function that has changed the lists of a message. -/
theorem Message.finish (ht : n.type = .string) (hms : ∀ m ∈ n.metalist, All Message m)
    (hcs : ∀ c ∈ n.childlist, All Message c) (o : ℤ) : All Message (n.finish o).node := by
  have htouch := touched_finish n o
  exact .mk (fun _ _ => htouch.type.trans ht) (htouch.metalist ▸ hms) (htouch.childlist ▸ hcs)

/-- The end of a function that has removed children. -/
theorem Message.finish_fewer (h : All Message n) (htype : n'.type = n.type) (hexp : n'.expanded = n.expanded)
    (hms : n'.metalist = n.metalist) (hcs : ∀ c ∈ n'.childlist, c ∈ n.childlist) (o : ℤ) :
    All Message (n'.finish o).node := by
  have htouch := touched_finish n' o
  refine .mk (fun he hne => ?_) (fun m hm => h.metas m ?_) fun c hc => h.children c (hcs c (htouch.childlist ▸ hc))
  · rw [htouch.type, htype]
    rw [htouch.metalist, hms, htouch.childlist] at hne
    refine h.here (hexp ▸ htouch.expanded ▸ he) (hne.imp id fun hne hnil =>
      hne (List.eq_nil_iff_forall_not_mem.mpr fun c hc => ?_))
    have := hcs c hc
    rw [hnil] at this
    exact absurd this List.not_mem_nil
  · rw [htouch.metalist, hms] at hm
    exact hm

theorem nil_evaluateSize (hms : n.metalist = []) (hcs : n.childlist = []) :
    n.evaluateSize.metalist = [] ∧ n.evaluateSize.childlist = [] := by
  obtain ⟨d, ms, cs⟩ := n
  cases hms
  cases hcs
  rw [evaluateSize]
  split
  · exact ⟨rfl, rfl⟩
  split
  · exact ⟨rfl, rfl⟩
  · rw [evaluateMetas, evaluateAll]
    exact ⟨rfl, rfl⟩

/-- A copy has not been looked into. -/
theorem nil_toLink {c d : KnvNode} (h : c.toLink false = .ok d) : d.metalist = [] ∧ d.childlist = [] := by
  unfold toLink innerDuplicate at h
  rw [if_neg Bool.false_ne_true] at h
  split at h
  · simp only at h
    split at h
    · cases h
    split at h
    · cases h
    · cases h
      exact ⟨rfl, rfl⟩
  · cases h
    exact ⟨rfl, rfl⟩

/-- A parent that hears of a node. -/
theorem Message.hear {p c c' : KnvNode} {s : Slot} (hp : All Message p) (hc : p.slot s = some c) (hc' : All Message c') :
    All Message ((p.setSlot s c').handleAll c'.self msgs).1 := by
  have ht := touched_handleAll c'.self msgs (p.setSlot s c')
  have hmem : p.metalist ≠ [] ∨ p.childlist ≠ [] := by
    cases s with
    | ofMeta i => exact .inl (List.ne_nil_of_mem (List.mem_of_getElem? hc))
    | ofChild i => exact .inr (List.ne_nil_of_mem (List.mem_of_getElem? hc))
  have hset : All Message (p.setSlot s c') :=
    hp.setSlot (fun he _ => by cases s <;> exact hp.here he hmem) hc'
  refine hset.touched ht fun he hne => ht.type.trans (hset.here (ht.expanded ▸ he) ?_)
  rwa [ht.metalist, ht.childlist] at hne

/-- A step of a walk whose terms are strict. -/
theorem WalkStep.message (h : WalkStep T pl n n' msgs) (hT : T.strict) (hn : All Message n) : All Message n' := by
  cases h with
  | expand k => exact Message.innerExpand hn _ _
  | setMeta =>
    have hopen := Message.innerExpand hn pl.parentKeyed false
    refine setMetaInner_rule (P := fun o => All Message o.node) (fun _ _ => hn) fun _ ht _ m hm => ?_
    subst hm
    have htype := (expandSame pl.parentKeyed false n).type.trans ht
    refine ⟨fun x hx => ?_, fun _ => ?_⟩
    · refine Message.finish ?_ ?_ ?_ _
      · exact htype
      swap
      · exact hopen.children
      intro m hm
      obtain ⟨y, hy, rfl⟩ := List.mem_map.mp hm
      split
      swap
      · exact hopen.metas y hy
      -- what is below the meta is gone
      have hx' := hopen.metas x (metaAt_mem hx)
      rw [overwrite_eq]
      split
      · exact message_of_nil rfl rfl
      · next hexp => exact .mk (fun he => absurd he hexp) hx'.metas hx'.children
    · refine Message.finish ?_ ?_ ?_ _
      · exact htype
      swap
      · exact hopen.children
      intro m hm
      have hm' : m ∈ (n.innerExpand pl.parentKeyed false).metalist ∨ m.metalist = [] ∧ m.childlist = [] := by
        unfold addMetaNode at hm
        simp only at hm
        split at hm
        · rcases List.mem_cons.mp hm with rfl | hm
          · exact .inr ⟨rfl, rfl⟩
          · exact .inl hm
        · rcases List.mem_append.mp hm with hm | hm
          · exact .inl hm
          · rw [List.mem_singleton.mp hm]
            exact .inr ⟨rfl, rfl⟩
      exact hm'.elim (hopen.metas m) fun h => message_of_nil h.1 h.2
  | setValue =>
    unfold KnvNode.setValue
    split
    · refine setValueStr_rule (P := fun o => All Message o.node) (fun _ => hn) fun _ _ _ _ _ m hm u hu => ?_
      subst hm
      subst hu
      split
      · exact message_of_nil (touched_updateEvalSz _ _).metalist (touched_updateEvalSz _ _).childlist
      · exact message_of_nil rfl rfl
    · refine setValueInt_rule (P := fun o => All Message o.node) (fun _ => hn) fun _ _ => .mk ?_ hn.metas hn.children
      exact hn.here
  | insert _ hs hexp hroom =>
    refine innerInsertChild_rule (P := fun o => All Message o.node) (fun _ => hn) fun c hc c' hc' => ?_
    have hnil := nil_toLink hc
    have hcopy : All Message c' := by
      rw [hc']
      split
      · exact message_of_nil (nil_evaluateSize hnil.1 hnil.2).1 (nil_evaluateSize hnil.1 hnil.2).2
      · exact message_of_nil hnil.1 hnil.2
    refine Message.finish ?_ ?_ ?_ _
    · exact (hroom hT).type
    · exact hn.metas
    intro x hx
    have hx' : x ∈ n.childlist ∨ x = c'.at' n.slots := by simpa [linkChild, or_comm] using hx
    rcases hx' with hx | rfl
    · exact hn.children x hx
    · exact All.at' (fun _ _ h => h) hcopy
  | removeByTag t =>
    have hopen := Message.innerExpand hn pl.parentKeyed false
    refine removeChildrenByTag_rule (P := fun o => All Message o.node) (fun _ => hn) fun _ m hm => ?_
    subst hm
    refine ⟨hopen, fun _ _ _ o ho => ?_⟩
    rw [ho]
    refine Message.finish_fewer hopen ?_ ?_ ?_ (fun c hc => (List.mem_filter.mp hc).1) _ <;> rfl
  | remove a pos _ =>
    refine removeChildByPos_rule (P := fun o => All Message o.node) hn fun _ _ o ho => ?_
    rw [ho]
    refine Message.finish_fewer hn ?_ ?_ ?_ (fun c hc => List.mem_of_mem_eraseP hc) _ <;> rfl

/-- **Only messages have nodes below them**, also after a walk whose terms are strict. -/
theorem Walk.message (h : Walk T pl n n' msgs) (hT : T.strict) (hn : All Message n) : All Message n' := by
  refine Edits.rule (fun _ n => All Message n) (fun _ _ _ _ => True) (fun _ _ _ _ hn _ hc => All.slot hn hc)
    (fun _ p s c c' msgs hp _ hc hc' _ => ⟨?_, trivial⟩)
    (fun _ _ _ _ hn hstep => ⟨hstep.message hT hn, trivial⟩) h hn
  rw [notify_setSlot hc]
  exact Message.hear hp hc hc'

/-! ### Updates -/

/-- A node that an update writes to. -/
structure Entry (T : Terms) (n : KnvNode) : Prop where
  expanded : n.expanded = true
  message : T.strict → All Message n
  writable : T.strict → Writable n

/-- A function that ends with `finish` leaves a node that may be written to. -/
theorem Entry.of_walk (h : Entry T n) (hwalk : Walk T pl n n' msgs) (hexp : n'.expanded = true)
    (hval : n' = n ∨ n'.val.str = [] ∨ n'.childlist ≠ []) : Entry T n' := by
  refine ⟨hexp, fun hT => hwalk.message hT (h.message hT), fun hT => ⟨hwalk.role.type.trans (h.writable hT).type, hexp, ?_⟩⟩
  rcases hval with rfl | hnil | hne
  · exact (h.writable hT).value
  · exact .inr (.inr hnil)
  · exact .inr (.inl hne)

theorem takeMeta_walk {m : KnvNode} (hx : T.src q x) (hm : m ∈ x.metalist) (h : Entry T n) :
    Entry T (takeMeta pl m n).node ∧ Walk T pl n (takeMeta pl m n).node (takeMeta pl m n).msgs := by
  unfold takeMeta
  split
  swap
  · exact ⟨h, .done⟩
  next htag =>
  have hwalk : Walk T pl n (n.setMetaInner m.tag m.type (some m.val) true pl).node
      (n.setMetaInner m.tag m.type (some m.val) true pl).msgs := .step (.setMeta hx hm htag h.writable)
  refine ⟨h.of_walk hwalk ?_ ?_, hwalk⟩
  · refine setMetaInner_rule (P := fun o => o.node.expanded = true) (fun _ _ => h.expanded) fun _ _ _ n' hn' => ?_
    have hexp' : n'.expanded = true := hn' ▸ innerExpand_expanded ..
    exact ⟨fun _ _ => (touched_finish _ _).expanded.trans hexp', fun _ => (touched_finish _ _).expanded.trans hexp'⟩
  · exact setMetaInner_rule (P := fun o => o.node = n ∨ o.node.val.str = [] ∨ o.node.childlist ≠ []) (fun _ _ => .inl rfl)
      fun _ _ _ n' _ => ⟨fun _ _ => .inr (.inl rfl), fun _ => .inr (.inl rfl)⟩

theorem expanded_removeChildrenByTag (t : UInt32) (pl : Place) (hexp : n.expanded = true) :
    (n.removeChildrenByTag t pl).node.expanded = true := by
  refine removeChildrenByTag_rule (P := fun o => o.node.expanded = true) (fun _ => hexp) fun _ n' hn' => ?_
  have hexp' : n'.expanded = true := hn' ▸ innerExpand_expanded ..
  refine ⟨hexp', fun _ _ _ o ho => ?_⟩
  rw [ho]
  exact (touched_finish _ _).expanded.trans hexp'

theorem dropTag_walk (t : UInt32) (h : Entry T n) :
    Entry T (dropTag pl t n).node ∧ Walk T pl n (dropTag pl t n).node (dropTag pl t n).msgs := by
  have hwalk : Walk T pl n (n.removeChildrenByTag t pl).node (n.removeChildrenByTag t pl).msgs := .step (.removeByTag t)
  refine ⟨h.of_walk hwalk (expanded_removeChildrenByTag t pl h.expanded) ?_, hwalk⟩
  refine removeChildrenByTag_rule (P := fun o => o.node = n ∨ o.node.val.str = [] ∨ o.node.childlist ≠ [])
    (fun _ => .inl rfl) fun _ n' hn' => ⟨.inl (hn'.trans (innerExpand_of_expanded h.expanded)), fun _ _ _ o ho => ?_⟩
  rw [ho]
  exact .inr (.inl rfl)

theorem takeChild_walk {update : KnvNode → Place → KnvNode → Out} {last : Bool} {s : KnvNode}
    (hvia : ∀ i, T.via (.ofChild i)) (hx : T.src q x) (hs : s ∈ x.childlist)
    (hup : ∀ pl n, (T.strict → All Message n) → Walk T pl n (update s pl n).node (update s pl n).msgs) (h : Entry T n) :
    Entry T (takeChild update last pl s n).node ∧
      Walk T pl n (takeChild update last pl s n).node (takeChild update last pl s n).msgs := by
  unfold takeChild
  split
  · split
    · next o ho =>
      have hwalk : Walk T pl n o.node o.msgs := by
        refine Walk.of_editAt (fun s hs => List.mem_singleton.mp hs ▸ hvia _) ho fun pl' t _ ht => hup pl' t fun hT => ?_
        exact all_nodeAt (h.message hT) ht
      obtain ⟨c, r, hc, -, rfl⟩ := editAt_cons ho
      refine ⟨h.of_walk hwalk ?_ (.inr (.inr ?_)), hwalk⟩
      · show (hanging.notify (hanging.set n _ r.node) _ r.msgs).1.expanded = true
        rw [notify_setSlot (show n.slot (.ofChild _) = some c from hc)]
        exact (touched_handleAll ..).expanded.trans h.expanded
      · -- the child is still there
        show (hanging.notify (hanging.set n _ r.node) _ r.msgs).1.childlist ≠ []
        rw [notify_setSlot (show n.slot (.ofChild _) = some c from hc), (touched_handleAll ..).childlist, setSlot_ofChild]
        intro hnil
        have hlen := congrArg List.length hnil
        rw [List.length_set, List.length_nil, List.length_eq_zero_iff] at hlen
        exact absurd hlen (List.ne_nil_of_mem (List.mem_of_getElem? hc))
    · exact ⟨h, .done⟩
  · have hwalk : Walk T pl n (innerInsertChild s false true true n).node (innerInsertChild s false true true n).msgs :=
      .step (.insert hx hs h.expanded h.writable)
    refine ⟨h.of_walk hwalk ?_ ?_, hwalk⟩
    · exact innerInsertChild_rule (P := fun o => o.node.expanded = true) (fun _ => h.expanded) fun _ _ _ _ =>
        (touched_finish _ _).expanded.trans h.expanded
    · exact innerInsertChild_rule (P := fun o => o.node = n ∨ o.node.val.str = [] ∨ o.node.childlist ≠ [])
        (fun _ => .inl rfl) fun _ _ _ _ => .inr (.inl rfl)

/-- `UpdateSubTree` of an inner node is a walk. -/
theorem takeContent_walk {order : List UInt32 → List UInt32} {update : KnvNode → Place → KnvNode → Out} {last : Bool}
    (hvia : ∀ i, T.via (.ofChild i)) (hx : T.src q x) (hup : ∀ s ∈ x.childlist, ∀ pl n, (T.strict → All Message n) →
      Walk T pl n (update s pl n).node (update s pl n).msgs) (h : Entry T n) :
    Walk T pl n (takeContent order update last pl x n).node (takeContent order update last pl x n).msgs := by
  have htags : ∀ (tags : List UInt32) (n : KnvNode), Entry T n → Entry T (Outcome.each 0 (dropTag pl) tags n).node ∧
      Walk T pl n (Outcome.each 0 (dropTag pl) tags n).node (Outcome.each 0 (dropTag pl) tags n).msgs :=
    fun _ _ h => Outcome.edits_each (P := Entry T) (fun t _ _ h => dropTag_walk t h) h
  have hmetas : ∀ n, Entry T n → Entry T (Outcome.each 0 (takeMeta pl) x.metalist n).node ∧
      Walk T pl n (Outcome.each 0 (takeMeta pl) x.metalist n).node (Outcome.each 0 (takeMeta pl) x.metalist n).msgs :=
    fun _ h => Outcome.edits_each (P := Entry T) (fun _ hm _ h => takeMeta_walk hx hm h) h
  have hchildren : ∀ n, Entry T n → Entry T (Outcome.each 0 (takeChild update last pl) x.childlist n).node ∧
      Walk T pl n (Outcome.each 0 (takeChild update last pl) x.childlist n).node
        (Outcome.each 0 (takeChild update last pl) x.childlist n).msgs :=
    fun _ h => Outcome.edits_each (P := Entry T) (fun s hs _ h => takeChild_walk hvia hx hs (hup s hs) h) h
  exact (Outcome.edits_next (P := Entry T) (Outcome.edits_next (P := Entry T) (hmetas n h) (htags _ _)) (hchildren _)).2

theorem takeValue_walk (hx : T.src q x) : Walk T pl n (n.takeValue x).node (n.takeValue x).msgs := by
  unfold takeValue
  split
  · exact .done
  · next v hv => exact .step (.setValue hx hv)

/-- The terms of an update by `u`, which has the place `q`. -/
abbrev byTree (via : Slot → Prop) (strict : Prop) (u : KnvNode) (q : Place) : Terms := ⟨via, strict, Part u q⟩

/-- **`UpdateSubTree` is a walk** that takes over from the parts of the update tree. -/
theorem updateSubTreeLevels_walk (order : List UInt32 → List UInt32) {via : Slot → Prop} {strict : Prop} {u₀ : KnvNode}
    {q₀ : Place} (hvia : ∀ i, via (.ofChild i)) : ∀ (levels : ℕ) {q : Place} {u : KnvNode} (pl : Place) (n : KnvNode),
    Part u₀ q₀ q u → (strict → All Message n) →
    Walk (byTree via strict u₀ q₀) pl n (updateSubTreeLevels order levels q.parentKeyed u pl n).node
      (updateSubTreeLevels order levels q.parentKeyed u pl n).msgs := by
  intro levels
  induction levels with
  | zero =>
    intro q u pl n hu _
    unfold updateSubTreeLevels
    split
    · exact .done
    split
    · exact .done
    · exact takeValue_walk (T := byTree via strict u₀ q₀) hu
  | succ levels ih =>
    intro q u pl n hu hn
    refine updateSubTreeLevels_rule (P := fun o => Walk (byTree via strict u₀ q₀) pl n o.node o.msgs) (fun _ => .done)
      (fun _ => .done) (fun _ _ _ last _ n' hn' => ?_) fun _ _ _ last _ _ hne => ?_
    · have hx : Walk (byTree via strict u₀ q₀) pl n' (n'.takeValue (u.innerExpand q.parentKeyed last)).node
          (n'.takeValue (u.innerExpand q.parentKeyed last)).msgs := takeValue_walk (hu.opened last)
      rcases hn' with ⟨rfl, -⟩ | rfl
      · exact hx
      · exact .trans (.step (.expand last)) hx
    · have hkey : (u.innerExpand q.parentKeyed last).key = u.key := (expandSame ..).key
      have hopen : strict → All Message (n.innerExpand pl.parentKeyed last) := fun hT => Message.innerExpand (hn hT) _ _
      refine .trans (.step (.expand last)) (takeContent_walk (T := byTree via strict u₀ q₀) hvia (hu.opened last)
        (fun s hs pl n hn => ?_)
          ⟨innerExpand_expanded .., hopen, fun hT => ⟨(hopen hT).here (innerExpand_expanded ..) (.inr hne),
          innerExpand_expanded .., .inr (.inl hne)⟩⟩)
      exact hkey ▸ ih pl n (.child (hu.opened last) hs) hn

/-! ### The shape of a tree -/

theorem WalkStep.shaped (h : WalkStep T pl n n' msgs) (hsrc : ∀ q x, T.src q x → Shaped x) (hn : Shaped n) :
    Shaped n' := by
  cases h with
  | expand k => exact hn.innerExpand ..
  | setMeta => exact (keepsShape_setMetaInner hn ..).1
  | setValue =>
    unfold KnvNode.setValue
    split
    · exact (keepsShape_setValueStr hn _).1
    · exact (shaped_run hn (.setValueInt _) trivial pl).1
  | insert hx hs hexp _ =>
    refine innerInsertChild_rule (P := fun o => Shaped o.node) (fun _ => hn) fun c hc c' hc' => ?_
    have hcopy := shaped_toLink ((hsrc _ _ hx).children _ hs) hc
    rw [evaluateSize_of_nonneg hcopy.here.evaluated, ite_self] at hc'
    exact (hn.linkChild hexp (hc' ▸ hcopy) true).touched (touched_finish ..)
  | removeByTag t => exact (keepsShape_removeChildrenByTag hn t pl).1
  | remove a pos _ => exact (keepsShape_removeChildByPos hn a pos).1

/-- **A walk keeps the shape of the tree.** -/
theorem Walk.shaped (h : Walk T pl n n' msgs) (hsrc : ∀ q x, T.src q x → Shaped x) (hn : Shaped n) : Shaped n' := by
  refine Edits.rule (fun _ n => Shaped n) (fun _ n n' _ => n'.self = n.self) (fun _ _ _ _ hn _ hc => All.slot hn hc)
    (fun _ p s c c' msgs hp _ hc hc' hself => ?_)
    (fun _ _ _ _ hn hstep => ⟨hstep.shaped hsrc hn, hstep.role.self⟩) h hn
  rw [notify_setSlot hc]
  have ht := touched_handleAll c'.self msgs (p.setSlot s c')
  exact ⟨(hp.setSlot hc hc' hself).touched ht, ht.self.trans (self_setSlot ..)⟩

/-! ### Deletions -/

/-- The terms of a deletion, which takes nothing over. -/
abbrev unfed (via : Slot → Prop) : Terms := ⟨via, True, fun _ _ => False⟩

variable {via : Slot → Prop}

/-- Where the nodes have different addresses, the node at an address is replaced in its place. -/
theorem replace_eq_set {l : List KnvNode} (h : (l.map (·.self)).Nodup) {c c' : KnvNode} {i : ℕ} (hc : l[i]? = some c)
    (hself : c'.self = c.self) : (l.map fun x => if x.self = c'.self then c' else x) = l.set i c' := by
  obtain ⟨hi, rfl⟩ := List.getElem?_eq_some_iff.mp hc
  refine List.ext_getElem (by simp) fun j hj _ => ?_
  rw [List.length_map] at hj
  rw [List.getElem_map, List.getElem_set]
  by_cases hij : i = j
  · subst hij
    rw [if_pos rfl, if_pos hself.symm]
  · have hne : l[j].self ≠ c'.self := fun heq => hij (by
      have hi' : i < (l.map (·.self)).length := by simpa using hi
      have hj' : j < (l.map (·.self)).length := by simpa using hj
      exact (@List.Nodup.getElem_inj_iff _ _ h i hi' j hj').mp (by rw [List.getElem_map, List.getElem_map, heq, hself]))
    rw [if_neg hij, if_neg hne]

/-- In a node whose nodes have different addresses, a child is replaced in its slot. -/
theorem setChildNode_eq_setSlot (hs : Shape n) {c c' : KnvNode} {i : ℕ} (hc : n.childlist[i]? = some c)
    (hself : c'.self = c.self) : n.setChildNode c' = n.setSlot (.ofChild i) c' := by
  rw [setChildNode, replace_eq_set hs.nodup_children hc hself]
  rfl

/-- Steps in a child that is found by its address are steps of the parent. -/
theorem edits_child {Step : Place → KnvNode → KnvNode → List Ev → Prop}
    (hstep : ∀ pl n n' msgs, Step pl n n' msgs → n'.self = n.self) (hvia : ∀ i, via (.ofChild i)) (hs : Shape n)
    {c c' : KnvNode} {a : ℕ} (hc : (n.childlist.find? fun c => c.self = a) = some c)
    (h : Edits hanging via Step ⟨n.key.bytes != [], false⟩ c c' msgs) :
    Edits hanging via Step pl n ((n.setChildNode c').handleAll a msgs).1 ((n.setChildNode c').handleAll a msgs).2 := by
  have hself : c.self = a := by simpa using List.find?_some hc
  have hself' := h.same lawful_hanging hstep
  obtain ⟨i, hi⟩ := List.mem_iff_getElem?.mp (List.mem_of_find?_eq_some hc)
  have hin := Edits.inside (H := hanging) (s := Slot.ofChild i) (n := n) (g := pl) lawful_hanging hstep h (hvia i) hi
  rw [notify_setSlot (show n.slot (.ofChild i) = some c from hi), hself', hself] at hin
  rw [setChildNode_eq_setSlot hs hi hself']
  exact hin

/-- A walk in a child, found by its address. -/
theorem Walk.child (hvia : ∀ i, T.via (.ofChild i)) (hs : Shape n) {c c' : KnvNode} {a : ℕ}
    (hc : (n.childlist.find? fun c => c.self = a) = some c) (h : Walk T ⟨n.key.bytes != [], false⟩ c c' msgs) :
    Walk T pl n ((n.setChildNode c').handleAll a msgs).1 ((n.setChildNode c').handleAll a msgs).2 :=
  edits_child (fun _ _ _ _ hstep => hstep.role.self) hvia hs hc h

/-- How far a deletion in `n` has come. -/
structure Deleting (via : Slot → Prop) (pl : Place) (n : KnvNode) (acc : Deletion) : Prop where
  walk : Walk (unfed via) pl n acc.node acc.msgs
  shaped : Shaped acc.node
  expanded : acc.node.expanded = true

theorem Deleting.fail {acc : Deletion} (h : Deleting via pl n acc) (ret : Except KnvErr ℕ) :
    Deleting via pl n { node := acc.node, msgs := acc.msgs, ret := ret } := ⟨h.walk, h.shaped, h.expanded⟩

/-- A deletion goes on with another walk. -/
theorem Deleting.next {acc acc' : Deletion} (h : Deleting via pl n acc) (hwalk : Walk (unfed via) pl acc.node acc'.node msgs)
    (hmsgs : acc'.msgs = acc.msgs ++ msgs) (hexp : acc'.node.expanded = true) : Deleting via pl n acc' :=
  ⟨hmsgs ▸ h.walk.trans hwalk, hwalk.shaped (fun _ _ hx => hx.elim) h.shaped, hexp⟩

theorem expanded_removeChildByPos {a : ℕ} {pos : Option ℕ} (hexp : n.expanded = true) :
    (n.removeChildByPos a pos).node.expanded = true := by
  refine removeChildByPos_rule (P := fun o => o.node.expanded = true) hexp fun _ _ o ho => ?_
  rw [ho]
  exact (touched_finish _ _).expanded.trans hexp

/-- What comes of a child after a deletion in it is a walk. -/
theorem settle_walk (hvia : ∀ i, via (.ofChild i)) (hs : Shape n) (hexp : n.expanded = true) {c : KnvNode}
    (hc : (n.childlist.find? fun x => x.self = c.self) = some c) (pos : Option ℕ) (ret : ℕ) :
    (settle pos ret c n).node.expanded = true ∧
      Walk (unfed via) pl n (settle pos ret c n).node (settle pos ret c n).msgs := by
  unfold settle
  split
  · exact ⟨expanded_removeChildByPos hexp, .step (.remove _ pos hexp)⟩
  · -- the child is expanded in its place
    have hopen : Walk (unfed via) pl n (n.setChildNode (c.getChildNum (n.key.bytes != [])).1) [] := by
      unfold getChildNum
      split
      · exact Walk.child (T := unfed via) hvia hs hc (.step (.expand false))
      · exact Walk.child (T := unfed via) hvia hs hc .done
    simp only
    split
    · exact ⟨expanded_removeChildByPos hexp, hopen.trans (.step (.remove _ pos hexp))⟩
    · exact ⟨hexp, hopen⟩

variable {acc : Deletion} {req s : KnvNode}

theorem Deleting.deleteAt (hvia : ∀ i, via (.ofChild i)) (h : Deleting via pl n acc) {delete : Bool → KnvNode → Deletion}
    {pos : Option ℕ} {a : ℕ}
    (hdel : ∀ k c, Shaped c → Walk (unfed via) ⟨k, false⟩ c (delete k c).node (delete k c).msgs) :
    Deleting via pl n (deleteAt delete req s pos a acc) := by
  unfold KnvProto.KnvNode.deleteAt
  cases hc : acc.node.childlist.find? fun c => c.self = a with
  | none => exact h
  | some c =>
    have hbelow := hdel (acc.node.key.bytes != []) c (h.shaped.children _ (List.mem_of_find?_eq_some hc))
    have hin := @Walk.child (unfed via) pl _ _ hvia h.shaped.here _ _ _ hc hbelow
    simp only
    generalize hr : delete (acc.node.key.bytes != []) c = r at hbelow hin ⊢
    have htouch := touched_handleAll a r.msgs (acc.node.setChildNode r.node)
    generalize hm : (acc.node.setChildNode r.node).handleAll a r.msgs = m at hin htouch ⊢
    have hexp : m.1.expanded = true := htouch.expanded.trans h.expanded
    have hdone : Deleting via pl n { node := m.1, msgs := acc.msgs ++ m.2 } := h.next hin rfl hexp
    split
    · exact hdone.fail _
    split
    · exact hdone.fail _
    · -- the child is there after its deletion, at its address
      have hmem : r.node ∈ m.1.childlist := by
        have hself : r.node.self = c.self := hbelow.role.self
        rw [htouch.childlist, setChildNode]
        exact List.mem_map.mpr ⟨c, List.mem_of_find?_eq_some hc, if_pos hself.symm⟩
      have hfind := find?_self hdone.shaped.here.nodup_children hmem
      obtain ⟨hexp', hsettle⟩ := settle_walk hvia hdone.shaped.here hexp hfind pos ‹_›
      exact hdone.next hsettle rfl hexp'

theorem Deleting.deleteByTag (h : Deleting via pl n acc) :
    Deleting via pl n (deleteByTag ⟨pl.parentKeyed, false⟩ req s acc) := by
  have hwalk : Walk (unfed via) pl acc.node (acc.node.removeChildrenByTag s.tag pl).node
      (acc.node.removeChildrenByTag s.tag pl).msgs := .step (.removeByTag s.tag)
  have hexp := expanded_removeChildrenByTag s.tag pl h.expanded
  unfold KnvProto.KnvNode.deleteByTag
  split
  · simp only
    split
    · exact h.next hwalk rfl hexp
    split
    · exact h.next hwalk rfl hexp
    · exact h.next hwalk rfl hexp
  · exact h

theorem Deleting.each {α : Type} {f : α → Deletion → Deletion} : ∀ {l : List α} {acc : Deletion},
    (∀ x ∈ l, ∀ acc, Deleting via pl n acc → Deleting via pl n (f x acc)) → Deleting via pl n acc →
    Deleting via pl n (Deletion.each f l acc) := by
  intro l
  induction l with
  | nil => exact fun _ h => h
  | cons x l ih =>
    intro acc hf h
    have hx := hf x (List.mem_cons_self ..) acc h
    rw [Deletion.each]
    split
    · exact hx
    · exact ih (fun y hy => hf y (List.mem_cons_of_mem _ hy)) hx

/-- **`DeleteSubTree` is a walk** that takes nothing over. -/
theorem deleteSubTreeFuel_walk (hvia : ∀ i, via (.ofChild i)) : ∀ (fuel : ℕ) (reqKeyed : Bool) (req : KnvNode)
    (pl : Place) (n : KnvNode), Shaped n →
    Walk (unfed via) pl n (deleteSubTreeFuel fuel reqKeyed req pl.parentKeyed n).node
      (deleteSubTreeFuel fuel reqKeyed req pl.parentKeyed n).msgs := by
  intro fuel
  induction fuel with
  | zero => exact fun _ _ _ _ _ => .done
  | succ fuel ih =>
    intro reqKeyed req pl n hn
    unfold deleteSubTreeFuel
    split
    · exact .done
    split
    · exact .done
    split
    · exact .done
    simp only
    generalize req.innerExpand reqKeyed false = r
    have hopen : Walk (unfed via) pl n (n.innerExpand pl.parentKeyed !r.childHasKey) [] := .step (.expand _)
    have hn' := hn.innerExpand pl.parentKeyed !r.childHasKey
    have hexp := innerExpand_expanded pl.parentKeyed (!r.childHasKey) n
    generalize n.innerExpand pl.parentKeyed (!r.childHasKey) = n' at hopen hn' hexp ⊢
    split
    · exact hopen
    have hloop := Deleting.each
      (f := deleteChild (deleteSubTreeFuel fuel (r.key.bytes != [])) ⟨pl.parentKeyed, false⟩ r) (l := r.childlist)
      (fun s _ acc hacc => ?_) (⟨.done, hn', hexp⟩ : Deleting via pl n' { node := n' })
    · split
      · exact hopen.trans hloop.walk
      · -- the number of children is asked of a node that is expanded
        have hsame : ∀ m : KnvNode, m.expanded = true → (m.getChildNum pl.parentKeyed).1 = m := by
          intro m hm
          rw [getChildNum, innerExpand_of_expanded hm, ite_self]
        simp only [hsame _ hloop.expanded]
        exact hopen.trans hloop.walk
    · unfold deleteChild
      split
      · split
        · exact hacc
        · exact hacc.deleteAt hvia fun k c hc => ih _ s ⟨k, false⟩ c hc
      split
      · exact hacc.deleteByTag
      · exact Deleting.each (fun a _ acc hacc => hacc.deleteAt hvia fun k c hc => ih _ s ⟨k, false⟩ c hc) hacc

end KnvNode

end KnvProto
