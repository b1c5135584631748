import KnvProto.Node.Forest

/-!
# Trees over whole runs

What a program does to nodes, call after call, and what holds of the trees that it has then: `Delete` of a tree puts
just its nodes to the free list, and the fields of a node are found by going from one to the next.

## The model

`NodeUse` is the memory, with the trees that the caller holds: those that have been made or detached, and not yet inserted,
removed or deleted. `NodeCall` are the functions that change a list, or what the other functions are made of: `GetSubTree`,
`DeleteSubTree`, `UpdateSubTree`, `MakeRequestTree` and `Duplicate` make, expand, insert and remove nodes by these. A
loop over the nodes with a tag, as that of `RemoveChildrenByTag`, is a call for each node.

A pointer is the number of a node. Nothing keeps a caller from giving one that is not where the call takes it
from: `Fits` says where that is. `Remove` and `Detach` take a node out of the `childlist` of its parent, and a meta is
not in there.

## What is proved

* `deleted_of_fits` — in a run whose calls all fit, `Delete` of a tree ends, and puts its nodes to the free list, each once.
* `visited_of_fits` — in such a run the fields of a valid node are visited, each once, in the order of the lists.
* `not_deletesTree`, `not_visits` — after `Remove` of a meta neither is so.
-/

namespace KnvProto

open Memory Linking

namespace NodeMem

/-! ### Fields -/

/-- `GetFirstMeta`, of a node that `Expand` leaves as it is. -/
def getFirstMeta (n : ℕ) (m : NodeMem) : Option ℕ :=
  if (m.data n).tag = 0 then none else if (m.data n).childNum < 0 then none else m.first (n, .metas)

/-- `GetFirstChild`, of a node that `Expand` leaves as it is. -/
def getFirstChild (n : ℕ) (m : NodeMem) : Option ℕ :=
  if (m.data n).tag = 0 then none else if (m.data n).childNum ≤ 0 then none else m.first (n, .children)

/-- The loop that looks for a tag among the siblings. -/
def seek (t : UInt32) : ℕ → Option ℕ → NodeMem → Option (Option ℕ)
  | 0, _, _ => none
  | _ + 1, none, _ => some none
  | turns + 1, some c, m => if (m.data c).tag = t then some (some c) else seek t turns (m.next c) m

/-- `GetFirstField`. -/
def getFirstField (turns n : ℕ) (t : UInt32) (m : NodeMem) : Option (Option ℕ) :=
  if t ≠ 0 then m.seek t turns (if t ≤ ucMaxMetaNum then m.getFirstMeta n else m.getFirstChild n)
  else match m.getFirstMeta n with
    | some c => some (some c)
    | none => some (m.getFirstChild n)

/-- `GetNextField`. -/
def getNextField (turns n cur : ℕ) (t : UInt32) (m : NodeMem) : Option (Option ℕ) :=
  if t ≠ 0 then m.seek t turns (m.next cur)
  else match m.next cur with
    -- has sibling
    | some c => some (some c)
    -- the last of metas is followed by the first child
    | none => match m.first (n, NodeList.metas) with
      | some f => some (if m.prev f = some cur then m.getFirstChild n else none)
      | none => some none

/-- The loop of `GetFields`. -/
def fieldsFrom (turns n : ℕ) (t : UInt32) (m : NodeMem) : ℕ → Option ℕ → Option (List ℕ)
  | 0, _ => none
  | _ + 1, none => some []
  | k + 1, some f => (m.getNextField turns n f t).bind fun f' => (fieldsFrom turns n t m k f').map (f :: ·)

/-- `GetFields`: the nodes from `GetFirstField` on, by `GetNextField`. -/
def getFields (turns n : ℕ) (t : UInt32) (m : NodeMem) : Option (List ℕ) :=
  (m.getFirstField turns n t).bind (fieldsFrom turns n t m turns)

end NodeMem

/-! ### Runs -/

/-- The nodes, and the trees that the caller holds. -/
structure NodeUse where
  /-- The nodes. -/
  mem : NodeMem := { data := fun _ => {} }
  /-- The trees, by their roots. -/
  held : List ℕ := []

/-- A call. -/
inductive NodeCall where
  /-- `New`, `InnerDuplicate` or `DupEmptyNode`. -/
  | new (newOk : Bool) (v : NodeMem.NodeInit)
  /-- `InnerExpand`. -/
  | expand (n : ℕ) (fs : List NodeMem.NodeField) (eom : Bool)
  /-- `Fold`. -/
  | fold (n : ℕ)
  /-- `SetValue`, or `SetMeta` for a meta `n` that is there; whether it is then taken for a leaf. -/
  | forget (n : ℕ) (leaf : Bool)
  /-- `SetMeta` for a meta that is not there, or `AddMeta`. -/
  | newMeta (n : ℕ) (front : Bool) (f : NodeMem.NodeField)
  /-- `SetTag`. -/
  | setTag (n : ℕ) (t : UInt32)
  /-- `InsertChild`. -/
  | insertChild (p c : ℕ) (atTail : Bool)
  /-- `RemoveChildByPos`. -/
  | removeChild (p c : ℕ)
  /-- `DetachChild`. -/
  | detachChild (p c : ℕ)
  /-- `InnerRemoveMeta`. -/
  | removeMeta (n c : ℕ)
  /-- `Remove`. -/
  | remove (c : ℕ)
  /-- `Detach`. -/
  | detach (c : ℕ)
  /-- `Delete`. -/
  | delete (r : ℕ)

namespace NodeMem

/-- `c` is in a list, as far as that ends. -/
def Listed (m : NodeMem) (i : ℕ × NodeList) (c : ℕ) : Prop := ∃ l, Threaded m.next (m.heads i) l ∧ c ∈ l

/-- `o` is in the tree with the root `r`. -/
def InTree (m : NodeMem) (r o : ℕ) : Prop := Relation.ReflTransGen (fun a b => ∃ k, m.Listed (a, k) b) r o

end NodeMem

namespace NodeCall

/-- What a call does, and what the caller holds then. `InsertChild`, `SetMeta` and `AddMeta` do nothing to a node that
cannot be expanded. -/
def run (w : NodeUse) : NodeCall → Option NodeUse
  | new newOk v => (w.mem.newNode newOk v).map fun (r, m) => ⟨m, r.toList ++ w.held⟩
  | expand n fs eom => (w.mem.innerExpand n fs eom).map (⟨·, w.held⟩)
  | fold n => (w.mem.fold n).map (⟨·, w.held⟩)
  | forget n leaf => (w.mem.forget n (if leaf then 0 else -1)).map (⟨·, w.held⟩)
  | newMeta n front f => if (w.mem.data n).childNum < 0 then some w else (w.mem.newMeta n front f).map (⟨·, w.held⟩)
  | setTag n t => some ⟨w.mem.setTag n t, w.held⟩
  | insertChild p c atTail =>
    if (w.mem.data p).childNum < 0 then some w else (w.mem.insertChild p c atTail).map (⟨·, w.held.erase c⟩)
  | removeChild p c => (w.mem.removeChild p c).map (⟨·, w.held⟩)
  | detachChild p c => (w.mem.detachChild p c).map (⟨·, c :: w.held⟩)
  | removeMeta n c => (w.mem.removeMeta n c).map (⟨·, w.held⟩)
  | remove c => (w.mem.remove c).map (⟨·, if (w.mem.data c).parent = none then w.held.erase c else w.held⟩)
  | detach c => (w.mem.detachNode c).map (⟨·, if (w.mem.data c).parent = none then w.held else c :: w.held⟩)
  | delete r => (w.mem.delete (w.mem.fresh + 1) r).map (⟨·, w.held.erase r⟩)

/-- The nodes that a call takes are where it takes them from: what is deleted or inserted is a tree that the caller
holds, what is removed or detached is in the list that it is taken out of, and what is expanded is in a tree. A tree
is not inserted into itself. -/
def Fits (w : NodeUse) : NodeCall → Prop
  | expand n _ _ => ∃ r ∈ w.held, w.mem.InTree r n
  | insertChild p c _ => c ∈ w.held ∧ ¬w.mem.InTree c p
  | removeChild p c => w.mem.Listed (p, .children) c
  | detachChild p c => w.mem.Listed (p, .children) c
  | removeMeta n c => w.mem.Listed (n, .metas) c
  | remove c => match (w.mem.data c).parent with
    | none => c ∈ w.held
    | some p => w.mem.Listed (p, .children) c
  | detach c => match (w.mem.data c).parent with
    | none => True
    | some p => w.mem.Listed (p, .children) c
  | delete r => r ∈ w.held
  | new .. => True
  | fold _ => True
  | forget .. => True
  | newMeta .. => True
  | setTag .. => True

/-- Calls, one after the other. -/
def runAll : List NodeCall → NodeUse → Option NodeUse
  | [], w => some w
  | call :: calls, w => (call.run w).bind (runAll calls)

/-- Every call fits, where it comes to it. -/
def AllFit : List NodeCall → NodeUse → Prop
  | [], _ => True
  | call :: calls, w => call.Fits w ∧ ∀ w', call.run w = some w' → AllFit calls w'

end NodeCall

/-! ### What a run keeps -/

namespace NodeMem

open NodeStore

variable {m m' : NodeMem} {S : NodeStore} {n c o r : ℕ}

theorem listed_iff (h : Trees m S) {i : ℕ × NodeList} : m.Listed i c ↔ c ∈ S.lists i := by
  have hlist := (h.forest.stored.ring i).forth
  exact ⟨fun ⟨_, hl, hc⟩ => hl.unique hlist ▸ hc, fun hc => ⟨_, hlist, hc⟩⟩

theorem inTree_iff (h : Trees m S) : m.InTree r o ↔ S.Under [r] o := by
  have hkid : (fun a b => ∃ k, m.Listed (a, k) b) = S.Kid := funext fun a => funext fun b => propext
    (exists_congr fun k => listed_iff h)
  rw [InTree, hkid]
  exact ⟨fun ho => ⟨r, List.mem_singleton_self r, ho⟩, fun ⟨a, ha, ho⟩ => List.mem_singleton.mp ha ▸ ho⟩

theorem placed_of_inTree (h : Trees m S) (hr : r ∈ S.alone) (ho : m.InTree r o) : Placed S o := by
  obtain ⟨a, ha, hpath⟩ := (inTree_iff h).mp ho
  rcases hpath.cases_tail with rfl | ⟨b, -, k, hk⟩
  · exact .inl (List.mem_singleton.mp ha ▸ hr)
  · exact .inr ⟨_, hk⟩

/-- There are no nodes at the beginning. -/
theorem Trees.start : Trees { data := fun _ => {} } {} where
  forest := by
    have hheads : NodeMem.heads { data := fun _ => {} } = fun _ => none := rfl
    rw [hheads]
    exact ⟨Stored.start _, fun _ _ => (by decide : (-1 : ℤ) < 0), fun _ _ ho => absurd ho List.not_mem_nil⟩
  counts _ ho := absurd ho (by decide : ¬(0 : ℤ) ≤ -1)

end NodeMem

namespace NodeUse

/-- The nodes form trees, and the caller holds their roots. -/
def Sound (w : NodeUse) : Prop := ∃ S, NodeMem.Trees w.mem S ∧ S.alone.Perm w.held

end NodeUse

namespace NodeCall

open NodeMem NodeUse

variable {w w' : NodeUse}

/-- **A call that fits leaves trees.** -/
theorem run_sound (h : w.Sound) {call : NodeCall} (hfit : call.Fits w) : ∃ w', call.run w = some w' ∧ w'.Sound := by
  obtain ⟨S, htrees, hheld⟩ := h
  cases call with
  | new newOk v =>
    obtain ⟨r, m', S', hm', htrees', halone⟩ := htrees.newNode newOk v
    exact ⟨⟨m', r.toList ++ w.held⟩, by rw [run, hm', Option.map_some], S', htrees', halone ▸ hheld.append_left _⟩
  | expand n fs eom =>
    obtain ⟨r, hr, hn⟩ := hfit
    obtain ⟨m', S', hm', htrees', halone⟩ := htrees.innerExpand (placed_of_inTree htrees (hheld.mem_iff.mpr hr) hn) fs eom
    exact ⟨⟨m', w.held⟩, by rw [run, hm', Option.map_some], S', htrees', halone ▸ hheld⟩
  | fold n =>
    obtain ⟨m', S', hm', htrees', halone⟩ := htrees.fold n
    exact ⟨⟨m', w.held⟩, by rw [run, hm', Option.map_some], S', htrees', halone ▸ hheld⟩
  | forget n leaf =>
    obtain ⟨m', S', hm', htrees', halone⟩ := htrees.forget n (v := if leaf then 0 else -1) (by cases leaf <;> decide)
    exact ⟨⟨m', w.held⟩, by rw [run, hm', Option.map_some], S', htrees', halone ▸ hheld⟩
  | newMeta n front f =>
    rw [run]
    split
    · exact ⟨w, rfl, S, htrees, hheld⟩
    · next hopen =>
      obtain ⟨m', S', hm', htrees', halone⟩ := htrees.newMeta (Int.not_lt.mp hopen) front f
      exact ⟨⟨m', w.held⟩, by rw [hm', Option.map_some], S', htrees', halone ▸ hheld⟩
  | setTag n t => exact ⟨⟨w.mem.setTag n t, w.held⟩, rfl, S, htrees.setTag n t, hheld⟩
  | insertChild p c atTail =>
    rw [run]
    split
    · exact ⟨w, rfl, S, htrees, hheld⟩
    · next hopen =>
      obtain ⟨hc, hnot⟩ := hfit
      rw [inTree_iff htrees] at hnot
      obtain ⟨m', S', hm', htrees', halone⟩ := htrees.insertChild (Int.not_lt.mp hopen) (hheld.mem_iff.mpr hc) hnot atTail
      exact ⟨⟨m', w.held.erase c⟩, by rw [hm', Option.map_some], S', htrees', halone ▸ hheld.erase c⟩
  | removeChild p c =>
    obtain ⟨m', S', hm', htrees', halone⟩ := htrees.removeChild ((listed_iff htrees).mp hfit)
    exact ⟨⟨m', w.held⟩, by rw [run, hm', Option.map_some], S', htrees', halone ▸ hheld⟩
  | detachChild p c =>
    obtain ⟨m', S', hm', htrees', halone⟩ := htrees.detachChild ((listed_iff htrees).mp hfit)
    exact ⟨⟨m', c :: w.held⟩, by rw [run, hm', Option.map_some], S', htrees', halone ▸ hheld.cons c⟩
  | removeMeta n c =>
    obtain ⟨m', S', hm', htrees', halone⟩ := htrees.removeMeta ((listed_iff htrees).mp hfit)
    exact ⟨⟨m', w.held⟩, by rw [run, hm', Option.map_some], S', htrees', halone ▸ hheld⟩
  | remove c =>
    rw [Fits] at hfit
    rw [run, NodeMem.remove]
    cases hparent : (w.mem.data c).parent with
    | none =>
      simp only [hparent] at hfit
      obtain ⟨m', S', -, hm', htrees', halone, -, -⟩ := htrees.delete (hheld.mem_iff.mpr hfit) (Nat.lt_succ_self w.mem.fresh)
      exact ⟨⟨m', w.held.erase c⟩, by simp [hm'], S', htrees', halone ▸ hheld.erase c⟩
    | some p =>
      simp only [hparent] at hfit
      obtain ⟨m', S', hm', htrees', halone⟩ := htrees.removeChild ((listed_iff htrees).mp hfit)
      exact ⟨⟨m', w.held⟩, by simp [hm'], S', htrees', halone ▸ hheld⟩
  | detach c =>
    rw [Fits] at hfit
    rw [run, NodeMem.detachNode]
    cases hparent : (w.mem.data c).parent with
    | none => exact ⟨w, rfl, S, htrees, hheld⟩
    | some p =>
      simp only [hparent] at hfit
      obtain ⟨m', S', hm', htrees', halone⟩ := htrees.detachChild ((listed_iff htrees).mp hfit)
      exact ⟨⟨m', c :: w.held⟩, by simp [hm'], S', htrees', halone ▸ hheld.cons c⟩
  | delete r =>
    obtain ⟨m', S', -, hm', htrees', halone, -, -⟩ := htrees.delete (hheld.mem_iff.mpr hfit) (Nat.lt_succ_self w.mem.fresh)
    exact ⟨⟨m', w.held.erase r⟩, by rw [run, hm', Option.map_some], S', htrees', halone ▸ hheld.erase r⟩

/-- **A run whose calls all fit leaves trees.** -/
theorem runAll_sound {calls : List NodeCall} (h : w.Sound) (hfit : AllFit calls w) :
    ∃ w', runAll calls w = some w' ∧ w'.Sound := by
  induction calls generalizing w with
  | nil => exact ⟨w, rfl, h⟩
  | cons call calls ih =>
    obtain ⟨w₁, hw₁, h₁⟩ := run_sound h hfit.1
    obtain ⟨w', hw', h'⟩ := ih h₁ (hfit.2 w₁ hw₁)
    exact ⟨w', by rw [runAll, hw₁, Option.bind_some, hw'], h'⟩

end NodeCall

/-! ### Deleting a tree -/

namespace NodeMem

open NodeStore

variable {m : NodeMem} {S : NodeStore} {n r : ℕ}

/-- `Delete` of the tree `r` ends, when it has turns for all nodes, and the free list is then what it was behind the
nodes of the tree, each once. -/
def DeletesTree (m : NodeMem) (r : ℕ) : Prop := ∀ turns, m.fresh < turns → ∃ m' gone free, m.delete turns r = some m' ∧
  Threaded m.next m.objFreelist free ∧ Threaded m'.next m'.objFreelist (gone ++ free) ∧ (gone ++ free).Nodup ∧
  ∀ o, o ∈ gone ↔ m.InTree r o

theorem Trees.deletesTree (h : Trees m S) (hr : r ∈ S.alone) : m.DeletesTree r := by
  intro turns hturns
  obtain ⟨m', S', F, hm', htrees, -, hfree, hunder⟩ := h.delete hr hturns
  have hlist := htrees.forest.stored.free
  rw [hfree] at hlist
  exact ⟨m', F, S.free, hm', h.forest.stored.free, hlist, hlist.nodup, fun o => (hunder o).symm.trans (inTree_iff h).symm⟩

end NodeMem

namespace NodeCall

/-- **Deleting a tree recycles every node exactly once.** In a run whose calls all fit, for every tree that the caller
has, `Delete` ends, and puts to the free list the nodes of the tree, none of them lost and none twice. -/
theorem deleted_of_fits {calls : List NodeCall} (hfit : AllFit calls {}) :
    ∃ w, runAll calls {} = some w ∧ ∀ r ∈ w.held, w.mem.DeletesTree r := by
  obtain ⟨w, hw, S, htrees, hheld⟩ := runAll_sound ⟨{}, NodeMem.Trees.start, List.Perm.refl _⟩ hfit
  exact ⟨w, hw, fun r hr => htrees.deletesTree (hheld.mem_iff.mpr hr)⟩

/-- A node with a meta and two children, of which one is removed. -/
def childRemoved : List NodeCall := [.new true { tag := 11, leaf := false },
  .expand 0 [{ tag := 2 }, { tag := 11 }, { tag := 12, leaf := false }] true, .remove 2]

theorem allFit_childRemoved : AllFit childRemoved {} := by
  refine ⟨trivial, fun w₁ hw₁ => ⟨⟨0, ?_, .refl⟩, fun w₂ hw₂ => ⟨?_, fun _ _ => trivial⟩⟩⟩
  · have hheld : ((NodeCall.new true { tag := 11, leaf := false }).run {}).map (·.held) = some [0] := by decide +kernel
    simp only [hw₁, Option.map_some, Option.some.injEq] at hheld
    exact hheld ▸ List.mem_cons_self ..
  · have hlinks : (((NodeCall.new true { tag := 11, leaf := false }).run {}).bind fun w =>
        (NodeCall.expand 0 [{ tag := 2 }, { tag := 11 }, { tag := 12, leaf := false }] true).run w).map
        (fun w => ((w.mem.data 2).parent, w.mem.heads (0, .children), w.mem.next 2, w.mem.next 3)) =
        some (some 0, some 2, some 3, none) := by decide +kernel
    simp only [hw₁, Option.bind_some, hw₂, Option.map_some, Option.some.injEq, Prod.mk.injEq] at hlinks
    obtain ⟨hparent, hhead, hnext₂, hnext₃⟩ := hlinks
    simp only [Fits, hparent]
    exact ⟨[2, 3], hhead ▸ .cons (hnext₂ ▸ .cons (hnext₃ ▸ .nil)), List.mem_cons_self ..⟩

/-- The tree that is left is deleted. -/
theorem deleted_of_fits_child : ∃ w, runAll childRemoved {} = some w ∧ w.held = [0] ∧ w.mem.objFreelist = some 2 ∧
    w.mem.DeletesTree 0 := by
  obtain ⟨w, hw, hall⟩ := deleted_of_fits allFit_childRemoved
  have hfacts : (runAll childRemoved {}).map (fun w => (w.held, w.mem.objFreelist)) = some ([0], some 2) := by decide +kernel
  simp only [hw, Option.map_some, Option.some.injEq, Prod.mk.injEq] at hfacts
  exact ⟨w, hw, hfacts.1, hfacts.2, hall 0 (hfacts.1 ▸ List.mem_cons_self ..)⟩

/-- A meta that is removed by `Remove`. -/
def metaRemoved : List NodeCall := [.new true { tag := 11, leaf := false },
    .expand 0 [{ tag := 2 }, { tag := 11 }] true, .remove 1]

/-- The meta is lost from the free list when its tree is deleted. -/
theorem not_deletesTree : ∃ w, runAll metaRemoved {} = some w ∧ w.held = [0] ∧ ¬w.mem.DeletesTree 0 := by
  obtain ⟨w, hw⟩ := Option.isSome_iff_exists.mp (by decide +kernel : (runAll metaRemoved {}).isSome)
  have hbefore : (runAll metaRemoved {}).map (fun w => (w.held, w.mem.fresh, w.mem.objFreelist, w.mem.next 1)) =
      some ([0], 3, some 1, none) := by decide +kernel
  have hafter : ((runAll metaRemoved {}).bind fun w => w.mem.delete 4 0).map (fun m => (m.objFreelist, m.next 0, m.next 2)) =
      some (some 0, some 2, none) := by decide +kernel
  simp only [hw, Option.map_some, Option.some.injEq, Prod.mk.injEq] at hbefore
  obtain ⟨hheld, hfresh, hlist, hnext⟩ := hbefore
  refine ⟨w, hw, hheld, fun h => ?_⟩
  obtain ⟨m', gone, free, hm', hfree, hgone, -, -⟩ := h 4 (by rw [hfresh]; decide)
  simp only [hw, Option.bind_some, hm', Option.map_some, Option.some.injEq, Prod.mk.injEq] at hafter
  obtain ⟨hhead, hnext₀, hnext₂⟩ := hafter
  have hfree' : free = [1] := hfree.unique (hlist ▸ .cons (hnext ▸ .nil))
  have hgone' : gone ++ free = [0, 2] := hgone.unique (hhead ▸ .cons (hnext₀ ▸ .cons (hnext₂ ▸ .nil)))
  rw [hfree'] at hgone'
  have hlast := congrArg List.getLast? hgone'
  rw [List.getLast?_concat] at hlast
  exact absurd hlast (by decide)

end NodeCall

/-! ### Visiting the fields -/

namespace NodeMem

open NodeStore

variable {m : NodeMem} {S : NodeStore} {n : ℕ}

/-- The fields of a node are visited: all of them from tag 0 on, first the metas, or those with a tag in the order of
their list. -/
def VisitsFields (m : NodeMem) (n : ℕ) : Prop := ∃ ms cs, Threaded m.next (m.first (n, .metas)) ms ∧
  Threaded m.next (m.first (n, .children)) cs ∧ (ms ++ cs).Nodup ∧ ∀ turns, m.fresh < turns → ∀ t, m.getFields turns n t =
    some (if t = 0 then ms ++ cs else (if t ≤ ucMaxMetaNum then ms else cs).filter fun c => (m.data c).tag = t)

/-- The loop finds the first sibling with a tag. -/
theorem seek_spec {t : UInt32} : ∀ {l : List ℕ} {turns : ℕ} {head : Option ℕ}, Threaded m.next head l → l.length < turns →
    m.seek t turns head = some (l.find? fun c => (m.data c).tag = t) := by
  intro l
  induction l with
  | nil =>
    intro turns head hl hturns
    obtain ⟨turns, rfl⟩ := Nat.exists_eq_add_one_of_ne_zero (Nat.ne_zero_of_lt hturns)
    rw [threaded_nil_iff.mp hl]
    rfl
  | cons c l ih =>
    intro turns head hl hturns
    obtain ⟨turns, rfl⟩ := Nat.exists_eq_add_one_of_ne_zero (Nat.ne_zero_of_lt hturns)
    obtain ⟨rfl, hrest⟩ := threaded_cons_iff.mp hl
    rw [seek, List.find?_cons]
    split
    · next htag => rw [decide_eq_true htag]
    · next htag =>
      rw [decide_eq_false htag]
      exact ih hrest (Nat.lt_of_succ_lt_succ hturns)

/-- With a tag, `GetFields` goes through a list. -/
theorem fieldsFrom_tag {turns : ℕ} {t : UInt32} (ht : t ≠ 0) : ∀ {l : List ℕ} {k : ℕ} {head : Option ℕ},
    Threaded m.next head l →
    l.length < turns → l.length < k →
    fieldsFrom turns n t m k (l.find? fun c => (m.data c).tag = t) = some (l.filter fun c => (m.data c).tag = t) := by
  intro l
  induction l with
  | nil =>
    intro k head _ _ hk
    obtain ⟨k, rfl⟩ := Nat.exists_eq_add_one_of_ne_zero (Nat.ne_zero_of_lt hk)
    rfl
  | cons c l ih =>
    intro k head hl hturns hk
    obtain ⟨-, hrest⟩ := threaded_cons_iff.mp hl
    have hturns' := Nat.lt_of_succ_lt hturns
    by_cases htag : (m.data c).tag = t
    · obtain ⟨k, rfl⟩ := Nat.exists_eq_add_one_of_ne_zero (Nat.ne_zero_of_lt hk)
      rw [List.find?_cons_of_pos (by simpa using htag), List.filter_cons_of_pos (by simpa using htag), fieldsFrom,
        getNextField,
        if_pos ht, seek_spec hrest hturns', Option.bind_some, ih hrest hturns' (Nat.lt_of_succ_lt_succ hk), Option.map_some]
    · rw [List.find?_cons_of_neg (by simpa using htag), List.filter_cons_of_neg (by simpa using htag)]
      exact ih hrest hturns' (Nat.lt_of_succ_lt hk)

/-- Behind a child comes the next one, as the last meta is no child. -/
theorem fieldsFrom_children {turns : ℕ} : ∀ {l : List ℕ} {k : ℕ} {head : Option ℕ}, Threaded m.next head l →
    (∀ f, m.first (n, .metas) = some f → ∀ c ∈ l, m.prev f ≠ some c) → l.length < k →
    fieldsFrom turns n 0 m k head = some l := by
  intro l
  induction l with
  | nil =>
    intro k head hl _ hk
    obtain ⟨k, rfl⟩ := Nat.exists_eq_add_one_of_ne_zero (Nat.ne_zero_of_lt hk)
    rw [threaded_nil_iff.mp hl]
    rfl
  | cons c l ih =>
    intro k head hl hlast hk
    obtain ⟨k, rfl⟩ := Nat.exists_eq_add_one_of_ne_zero (Nat.ne_zero_of_lt hk)
    obtain ⟨rfl, hrest⟩ := threaded_cons_iff.mp hl
    have hnext : m.getNextField turns n c 0 = some (m.next c) := by
      rw [getNextField, if_neg (by simp)]
      cases hc : m.next c with
      | some d => rfl
      | none =>
        cases hf : m.first (n, .metas) with
        | none => rfl
        | some f => simp only [if_neg (hlast f hf c (List.mem_cons_self ..))]
    rw [fieldsFrom, hnext, Option.bind_some, ih hrest (fun f hf d hd => hlast f hf d (List.mem_cons_of_mem _ hd))
      (Nat.lt_of_succ_lt_succ hk), Option.map_some]

/-- Behind a meta comes the next one, and behind the last one the first child. -/
theorem fieldsFrom_metas {turns f : ℕ} {cs : List ℕ} (hf : m.first (n, .metas) = some f)
    (hchild : Threaded m.next (m.getFirstChild n) cs) : ∀ {l : List ℕ} {k : ℕ} {head : Option ℕ}, Threaded m.next head l →
    l ≠ [] → m.prev f = l.getLast? → (∀ c ∈ cs, c ∉ l) → l.length + cs.length < k →
    fieldsFrom turns n 0 m k head = some (l ++ cs) := by
  intro l
  induction l with
  | nil => exact fun _ hne => absurd rfl hne
  | cons c l ih =>
    intro k head hl _ hlast hapart hk
    obtain ⟨k, rfl⟩ := Nat.exists_eq_add_one_of_ne_zero (Nat.ne_zero_of_lt hk)
    obtain ⟨rfl, hrest⟩ := threaded_cons_iff.mp hl
    rw [List.length_cons] at hk
    cases l with
    | nil =>
      have hnext : m.getNextField turns n c 0 = some (m.getFirstChild n) := by
        rw [getNextField, if_neg (by simp)]
        simp only [threaded_nil_iff.mp hrest, hf, hlast, List.getLast?_singleton, if_true]
      have hlast' : ∀ g, m.first (n, .metas) = some g → ∀ d ∈ cs, m.prev g ≠ some d := fun g hg d hd hcd => by
        rw [hf] at hg
        obtain rfl := Option.some.inj hg
        rw [hlast, List.getLast?_singleton] at hcd
        exact hapart d hd (Option.some.inj hcd ▸ List.mem_singleton_self c)
      rw [fieldsFrom, hnext, Option.bind_some, fieldsFrom_children hchild hlast' (by omega), Option.map_some]
      rfl
    | cons d l =>
      have hnext : m.getNextField turns n c 0 = some (m.next c) := by
        rw [getNextField, if_neg (by simp)]
        simp only [(threaded_cons_iff.mp hrest).1]
      rw [fieldsFrom, hnext, Option.bind_some, ih hrest (List.cons_ne_nil _ _) (hlast.trans List.getLast?_cons_cons)
        (fun e he hmem => hapart e he (List.mem_cons_of_mem _ hmem)) (by omega), Option.map_some]
      rfl

theorem getFirstMeta_eq (htag : (m.data n).tag ≠ 0) (hn : 0 ≤ (m.data n).childNum) :
    m.getFirstMeta n = m.first (n, .metas) := by
  rw [getFirstMeta, if_neg htag, if_neg (Int.not_lt.mpr hn)]

theorem getFirstChild_eq (htag : (m.data n).tag ≠ 0) {cs : List ℕ} (hcs : Threaded m.next (m.first (n, .children)) cs)
    (hcount : (m.data n).childNum = cs.length) : m.getFirstChild n = m.first (n, .children) := by
  rw [getFirstChild, if_neg htag, hcount]
  split
  · next hnone =>
    have hlen : cs.length = 0 := by omega
    rw [List.length_eq_zero_iff.mp hlen, threaded_nil_iff] at hcs
    exact hcs.symm
  · rfl

/-- The fields of an expanded node that is valid are visited. -/
theorem Trees.visitsFields (h : Trees m S) (hn : 0 ≤ (m.data n).childNum) (htag : (m.data n).tag ≠ 0) :
    m.VisitsFields n := by
  have hmetas := h.forest.stored.ring (n, .metas)
  have hchildren := h.forest.stored.ring (n, .children)
  rw [heads_of_open hn] at hmetas hchildren
  have hapart : ∀ c ∈ S.lists (n, .children), c ∉ S.lists (n, .metas) := fun c hc hc' =>
    absurd (h.forest.stored.apart _ _ c hc hc') (by simp)
  have hnd : (S.lists (n, .metas) ++ S.lists (n, .children)).Nodup := List.nodup_append.mpr
    ⟨hmetas.nodup, hchildren.nodup, fun a ha b hb hab => hapart b hb (hab ▸ ha)⟩
  have hlen : (S.lists (n, .metas) ++ S.lists (n, .children)).length ≤ m.fresh := by
    have hsub : S.lists (n, .metas) ++ S.lists (n, .children) ⊆ List.range m.fresh := fun o ho => by
      rw [List.mem_range, h.forest.stored.fresh, h.forest.stored.known]
      exact .inl ((List.mem_append.mp ho).elim (fun ho => ⟨_, ho⟩) fun ho => ⟨_, ho⟩)
    have hle := List.Nodup.length_le_of_subset hnd hsub
    rwa [List.length_range] at hle
  rw [List.length_append] at hlen
  have hfirstMeta := getFirstMeta_eq htag hn
  have hfirstChild := getFirstChild_eq htag hchildren.forth (h.counts n hn)
  refine ⟨S.lists (n, .metas), S.lists (n, .children), hmetas.forth, hchildren.forth, hnd, fun turns hturns t => ?_⟩
  rw [getFields]
  by_cases ht : t = 0
  · subst ht
    rw [if_pos rfl, getFirstField, if_neg (by simp), hfirstMeta]
    cases hf : m.first (n, .metas) with
    | none =>
      rw [hf, ring_none_iff] at hmetas
      rw [hmetas, List.nil_append]
      refine fieldsFrom_children (hfirstChild ▸ hchildren.forth) (fun f hf' => ?_) (by omega)
      rw [hf] at hf'
      exact absurd hf' (Option.some_ne_none f).symm
    | some f =>
      have hne : S.lists (n, .metas) ≠ [] := fun hnil => by
        rw [hnil, hf, ring_nil_iff] at hmetas
        exact absurd hmetas (Option.some_ne_none f)
      exact fieldsFrom_metas hf (hfirstChild ▸ hchildren.forth) (hf ▸ hmetas.forth) hne
        (hmetas.tailed.tail f hf) hapart (by omega)
  · rw [if_neg ht, getFirstField, if_pos ht]
    by_cases hmeta : t ≤ ucMaxMetaNum
    · rw [if_pos hmeta, if_pos hmeta, hfirstMeta, seek_spec hmetas.forth (by omega), Option.bind_some]
      exact fieldsFrom_tag ht hmetas.forth (by omega) (by omega)
    · rw [if_neg hmeta, if_neg hmeta, hfirstChild, seek_spec hchildren.forth (by omega), Option.bind_some]
      exact fieldsFrom_tag ht hchildren.forth (by omega) (by omega)

/-- A node that is not valid has no fields for `GetFields`. -/
theorem getFields_invalid (htag : (m.data n).tag = 0) {turns : ℕ} (hturns : 0 < turns) (t : UInt32) :
    m.getFields turns n t = some [] := by
  obtain ⟨k, rfl⟩ := Nat.exists_eq_add_one_of_ne_zero (Nat.ne_of_gt hturns)
  have hmeta : m.getFirstMeta n = none := if_pos htag
  have hchild : m.getFirstChild n = none := if_pos htag
  rw [getFields, getFirstField, hmeta, hchild, ite_self, seek, Option.bind_eq_some_iff]
  exact ⟨none, by split <;> rfl, rfl⟩

/-- **The fields of an expanded node are visited** when it is valid, or has none. -/
theorem Trees.visitsFields_iff (h : Trees m S) (hn : 0 ≤ (m.data n).childNum) : m.VisitsFields n ↔
    (m.data n).tag ≠ 0 ∨ m.first (n, .metas) = none ∧ m.first (n, .children) = none := by
  by_cases htag : (m.data n).tag = 0
  · rw [or_iff_right (not_not_intro htag)]
    constructor
    · rintro ⟨ms, cs, hms, hcs, -, hall⟩
      have hnone := hall (m.fresh + 1) (Nat.lt_succ_self _) 0
      rw [getFields_invalid htag (Nat.succ_pos _), if_pos rfl, Option.some.injEq] at hnone
      obtain ⟨rfl, rfl⟩ := List.append_eq_nil_iff.mp hnone.symm
      exact ⟨threaded_nil_iff.mp hms, threaded_nil_iff.mp hcs⟩
    · rintro ⟨hms, hcs⟩
      refine ⟨[], [], hms ▸ .nil, hcs ▸ .nil, List.nodup_nil, fun turns hturns t => ?_⟩
      rw [getFields_invalid htag (Nat.zero_lt_of_lt hturns)]
      simp
  · exact iff_of_true (h.visitsFields hn htag) (.inl htag)

end NodeMem

namespace NodeCall

/-- **Field iteration is complete.** In a run whose calls all fit, the fields of every expanded node are visited,
unless the node is not valid and has fields. -/
theorem visited_of_fits {calls : List NodeCall} (hfit : AllFit calls {}) : ∃ w, runAll calls {} = some w ∧
    ∀ n, 0 ≤ (w.mem.data n).childNum → (w.mem.VisitsFields n ↔
      (w.mem.data n).tag ≠ 0 ∨ w.mem.first (n, .metas) = none ∧ w.mem.first (n, .children) = none) := by
  obtain ⟨w, hw, S, htrees, -⟩ := runAll_sound ⟨{}, NodeMem.Trees.start, List.Perm.refl _⟩ hfit
  exact ⟨w, hw, fun n hn => htrees.visitsFields_iff hn⟩

/-- The fields that are left are visited. -/
theorem visited_of_fits_child : ∃ w, runAll childRemoved {} = some w ∧ w.mem.VisitsFields 0 ∧
    w.mem.getFields 5 0 0 = some [1, 3] := by
  obtain ⟨w, hw, hall⟩ := visited_of_fits allFit_childRemoved
  have hnode : (runAll childRemoved {}).map (fun w => (w.mem.data 0, w.mem.getFields 5 0 0)) =
      some (⟨11, none, 1⟩, some [1, 3]) := by decide +kernel
  simp only [hw, Option.map_some, Option.some.injEq, Prod.mk.injEq] at hnode
  obtain ⟨hdata, hfields⟩ := hnode
  exact ⟨w, hw, (hall 0 (by rw [hdata]; decide)).mpr (.inl (by rw [hdata]; decide)), hfields⟩

/-- After `Remove` of a meta the child is not visited. -/
theorem not_visits : ∃ w, runAll metaRemoved {} = some w ∧ 0 ≤ (w.mem.data 0).childNum ∧ (w.mem.data 0).tag ≠ 0 ∧
    ¬w.mem.VisitsFields 0 := by
  obtain ⟨w, hw⟩ := Option.isSome_iff_exists.mp (by decide +kernel : (runAll metaRemoved {}).isSome)
  have hnode : (runAll metaRemoved {}).map (fun w => (w.mem.data 0, w.mem.fresh, w.mem.first (0, .metas),
    w.mem.first (0, .children))) =
      some (⟨11, none, 0⟩, 3, some 1, some 2) := by decide +kernel
  have hlinks : (runAll metaRemoved {}).map (fun w => (w.mem.next 1, w.mem.next 2, w.mem.getFields 4 0 0)) =
      some (none, none, some [1]) := by decide +kernel
  simp only [hw, Option.map_some, Option.some.injEq, Prod.mk.injEq] at hnode hlinks
  obtain ⟨hdata, hfresh, hmetas, hchildren⟩ := hnode
  obtain ⟨hnext₁, hnext₂, hfields⟩ := hlinks
  refine ⟨w, hw, by rw [hdata], by rw [hdata]; decide, ?_⟩
  rintro ⟨ms, cs, hms, hcs, -, hall⟩
  have hms' : ms = [1] := hms.unique (hmetas ▸ .cons (hnext₁ ▸ .nil))
  have hcs' : cs = [2] := hcs.unique (hchildren ▸ .cons (hnext₂ ▸ .nil))
  have hzero := hall 4 (by rw [hfresh]; decide) 0
  rw [hfields, if_pos rfl, hms', hcs'] at hzero
  exact absurd hzero (by decide)

end NodeCall

end KnvProto
