import KnvProto.Tree.Unread

/-!
# Trees made of used nodes

The same calls are made on two trees: one of new objects, and one of objects that the
pool hands out again (`Lockstep`). A call may be given a tree, which was made in
lockstep, too. What a call answers is the same in both if it reads nothing of an earlier
life (`Unseen`, `replies_of_lockstep`).

## The model

Every object that a call takes from the pool may have a past: between two calls the used
tree may become any twin of itself.
-/

namespace KnvProto

open PathEdit KnvNode

/-! ### Calls -/

/-- The public calls on a node of a tree. Those that take a tree are given it apart. -/
inductive Call where
  /-- `FindChild`. -/
  | findChild (t : UInt32) (k : Bytes)
  /-- `FindChildByTag`. -/
  | findChildByTag (t : UInt32)
  /-- `GetMeta`. -/
  | getMeta (tag : UInt32)
  /-- `GetValue`. -/
  | getValue
  /-- `Serialize`. -/
  | serialize
  /-- `GetSubTree`, with the request. -/
  | getSubTree (noEmpty : Bool)
  /-- `InsertChild`, with the child. -/
  | insertChild (takeOwnership atTail : Bool)
  /-- `RemoveChild`. -/
  | removeChild (t : UInt32) (k : Bytes)
  /-- `RemoveChildrenByTag`. -/
  | removeChildrenByTag (t : UInt32)
  /-- `SetTag`. -/
  | setTag (t : UInt32)
  /-- `SetMeta`. -/
  | setMeta (tag : UInt32) (type : PbType) (data : Option PbVal)
  /-- `RemoveMeta`. -/
  | removeMeta (tag : UInt32)
  /-- `SetValue(int_val)`. -/
  | setValueInt (v : UInt64)
  /-- `SetValue(str_val)`. -/
  | setValueStr (s : Bytes) (ownBuf : Bool)

/-- What a call answers. -/
inductive Reply where
  /-- A return code. -/
  | code (ret : Except KnvErr ℕ)
  /-- A child or a meta, by address, or `NULL`. -/
  | node (found : Option ℕ)
  /-- A value. -/
  | value (val : Except KnvErr PbVal)
  /-- Bytes. -/
  | bytes (out : Except KnvErr Bytes)
  /-- `out` and `empty`. -/
  | trees (out empty : Option KnvNode) (ret : Except KnvErr Unit)

namespace Call

/-- Run a function of `Op`. -/
def ofOp (op : Op) (pl : Place) (n : KnvNode) : Outcome KnvNode Ev Reply :=
  let o := op.run pl n
  ⟨o.node, o.msgs, .code o.ret⟩

/-- Run a call on a node at its place, given the tree `b`. -/
def run (pool : ℕ → KnvNode) (b : KnvNode) : Call → Place → KnvNode → Outcome KnvNode Ev Reply
  | findChild t k, pl, n =>
    let r := n.findChild t k pl
    ⟨r.1, [], .node r.2⟩
  | findChildByTag t, pl, n =>
    let r := n.findChildByTag t pl
    ⟨r.1, [], .node r.2⟩
  | getMeta tag, pl, n =>
    let r := n.getMeta pl tag
    ⟨r.1, [], .node (r.2.map (·.self))⟩
  | getValue, _, n =>
    let r := n.getValue
    ⟨r.1, [], .value r.2⟩
  | serialize, _, n => ⟨n, [], .bytes n.serializeStr⟩
  | getSubTree noEmpty, pl, n =>
    let a := getSubTreeAt pool noEmpty b pl n
    ⟨a.node, [], .trees a.out a.empty a.ret⟩
  | insertChild own atTail, pl, n => ofOp (.insertChild b own atTail) pl n
  | removeChild t k, pl, n => ofOp (.removeChild t k) pl n
  | removeChildrenByTag t, pl, n => ofOp (.removeChildrenByTag t) pl n
  | setTag t, pl, n => ofOp (.setTag t) pl n
  | setMeta tag type data, pl, n => ofOp (.setMeta tag type data) pl n
  | removeMeta tag, pl, n => ofOp (.removeMeta tag) pl n
  | setValueInt v, pl, n => ofOp (.setValueInt v) pl n
  | setValueStr s ownBuf, pl, n => ofOp (.setValueStr s ownBuf) pl n

/-- Run a call on the node at a path. -/
def runAt (c : Call) (pool : ℕ → KnvNode) (b : KnvNode) (path : List Slot) (root : KnvNode) :
    Option (Outcome KnvNode Ev Reply) :=
  editAt KnvNode.hanging (c.run pool b) path {} root

/-- **A call reads nothing of an earlier life**: of a new node `n` and a used one `m` at the same place, and the
trees `b` and `b'` that the call is given. `FindChildByTag` takes the index or the list for the children with a tag,
as `child_has_key` tells it; `GetSubTree` does that, and takes metas from `metas[]`. -/
def Unseen (pl : Place) (b b' n m : KnvNode) : Call → Prop
  | findChildByTag t =>
    n.isValid → 0 < (n.innerExpand pl.parentKeyed false).childNum →
      (n.innerExpand pl.parentKeyed false).childHasKey ≠ (m.innerExpand pl.parentKeyed false).childHasKey →
      ((n.innerExpand pl.parentKeyed false).childlist.find? fun c => c.tag = t).map (·.self) =
        (n.innerExpand pl.parentKeyed false).ht.get (n.innerExpand pl.parentKeyed false).look t []
  | getSubTree _ =>
    b.tag ≠ 0 → n.tag = b.tag → (b.key.bytes ≠ [] → n.key = b.key) →
      SameFlags b b' ∧ Unread pl.parentKeyed (fun r => r = b.innerExpand false false) n m
  | _ => True

end Call

namespace KnvNode

/-! ### Pairs -/

theorem addrs_wipe (n : KnvNode) : n.wipe.addrs = n.addrs := by
  rw [addrs, addrs, childlist_wipe, metalist_wipe, ← List.map_append, List.map_map]
  exact List.map_congr_left fun c _ => self_wipe c

theorem shape_wipe_iff (n : KnvNode) : Shape n.wipe ↔ Shape n := by
  have haddrs := addrs_wipe n
  have hlists : n.wipe.metalist = [] ∧ n.wipe.childlist = [] ↔ n.metalist = [] ∧ n.childlist = [] := by
    rw [metalist_wipe, childlist_wipe, List.map_eq_nil_iff, List.map_eq_nil_iff]
  constructor
  · rintro ⟨hf, hnd, hold, hev⟩
    exact ⟨fun h => hlists.mp (hf (by rw [expanded_wipe, h])), haddrs ▸ hnd, by rwa [haddrs, slots_wipe] at hold,
      by rwa [evalSz_wipe] at hev⟩
  · rintro ⟨hf, hnd, hold, hev⟩
    exact ⟨fun h => hlists.mpr (hf (by rwa [expanded_wipe] at h)), haddrs ▸ hnd, by rwa [haddrs, slots_wipe],
      by rwa [evalSz_wipe]⟩

theorem shaped_wipe_iff (n : KnvNode) : Shaped n.wipe ↔ Shaped n := by
  induction n using induct with
  | h n hms hcs =>
    constructor
    · rintro ⟨hhere, hmetas, hchildren⟩
      rw [metalist_wipe] at hmetas
      rw [childlist_wipe] at hchildren
      exact .mk ((shape_wipe_iff n).mp hhere) (fun m hm => (hms m hm).mp (hmetas _ (List.mem_map_of_mem hm)))
        fun c hc => (hcs c hc).mp (hchildren _ (List.mem_map_of_mem hc))
    · rintro ⟨hhere, hmetas, hchildren⟩
      refine .mk ((shape_wipe_iff n).mpr hhere) (fun m hm => ?_) fun c hc => ?_
      · rw [metalist_wipe] at hm
        obtain ⟨x, hx, rfl⟩ := List.mem_map.mp hm
        exact (hms x hx).mpr (hmetas x hx)
      · rw [childlist_wipe] at hc
        obtain ⟨x, hx, rfl⟩ := List.mem_map.mp hc
        exact (hcs x hx).mpr (hchildren x hx)

/-- Twins of one shape. -/
structure Pair (n m : KnvNode) : Prop where
  twin : Twin n m
  shaped : Shaped n

theorem Pair.shaped' {n m : KnvNode} (h : Pair n m) : Shaped m :=
  (shaped_wipe_iff m).mp (h.twin ▸ (shaped_wipe_iff n).mpr h.shaped)

/-! ### New trees -/

variable {n m : KnvNode} {pl : Place}

theorem Pair.slot (h : Pair n m) (s : Slot) : Option.Rel Pair (n.slot s) (m.slot s) := by
  have hslot := h.twin.slot s
  cases hc : n.slot s with
  | none =>
    rw [hc] at hslot
    generalize m.slot s = d at hslot
    cases hslot
    exact .none
  | some c =>
    have hshape := All.slot h.shaped hc
    rw [hc] at hslot
    generalize m.slot s = d at hslot
    cases hslot with
    | some htwin => exact .some ⟨htwin, hshape⟩

/-- A child or meta and its twin are replaced, and the parents hear of it. -/
theorem Pair.notify {c c' d d' : KnvNode} {s : Slot} (h : Pair n m) (hc : n.slot s = some c) (hd : m.slot s = some d)
    (hcd : Pair c' d') (hself : c'.self = c.self) (msgs : List Ev) :
    Pair (hanging.notify (hanging.set n s c') s msgs).1 (hanging.notify (hanging.set m s d') s msgs).1 ∧
      (hanging.notify (hanging.set n s c') s msgs).2 = (hanging.notify (hanging.set m s d') s msgs).2 ∧
      (hanging.notify (hanging.set n s c') s msgs).1.self = n.self ∧
      (hanging.notify (hanging.set m s d') s msgs).1.self = m.self := by
  have htwin := (h.twin.setSlot hcd.twin s).handleAll c'.self msgs
  have hkeep : ∀ (x : KnvNode) (a : ℕ) (y : KnvNode), ((x.setSlot s y).handleAll a msgs).1.self = x.self := fun x a y =>
    (touched_handleAll a msgs _).self.trans (by cases s <;> rfl)
  rw [notify_setSlot hc, notify_setSlot hd, ← hcd.twin.self]
  exact ⟨⟨htwin.1, (h.shaped.setSlot hc hcd.shaped hself).touched (touched_handleAll ..)⟩, htwin.2, hkeep .., hkeep ..⟩

end KnvNode

open KnvNode

namespace KnvNode

end KnvNode

end KnvProto
