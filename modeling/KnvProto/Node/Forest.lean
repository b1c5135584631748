import KnvProto.Node.Release
import KnvProto.Node.Basic

/-!
# Nodes and their lists

The functions of `KnvNode` that change `metalist`, `childlist` and `child_num`, as far as they do: what comes from a
message, from a buffer or from the memory is given with the call. So are the nodes that `metas[]` and `ht` lead to.

## The model

`DeleteAll` in a loop over the nodes of a list, and `ReleaseObject`, take as many turns as there are nodes. `InitNode` fails
when there is no memory for the value.

`Forest` is what holds of the nodes whatever is done: the lists are lists, every node of a list is below one that
stands alone, and what is free is not expanded. `Trees` adds that `child_num` is the length of `childlist`.
-/

namespace KnvProto

open Memory Linking

namespace NodeMem

open NodeStore

/-! ### The source -/

/-- `child_num = v`. -/
def setChildNum (n : ℕ) (v : ℤ) (m : NodeMem) : NodeMem := m.setData n fun d => { d with childNum := v }

/-- `InitChildList`. -/
def initChildList (n : ℕ) (childnum : ℤ) (m : NodeMem) : NodeMem :=
  ((m.setChildNum n childnum).setFirst (n, .children) none).setFirst (n, .metas) none

/-- What `InitNode` is given. -/
structure NodeInit where
  /-- `_tag`. -/
  tag : UInt32
  /-- Is there memory for the value? -/
  ok : Bool := true
  /-- Is the value no message? -/
  leaf : Bool := true

/-- `InitNode`. -/
def initNode (v : NodeInit) (n : ℕ) (m : NodeMem) : NodeMem :=
  let m := m.setData n fun d => { d with tag := v.tag, parent := none }
  if v.ok then m.initChildList n (if v.leaf then 0 else -1) else m

/-- `parent = p`. -/
def setParent (n p : ℕ) (m : NodeMem) : NodeMem := m.setData n fun d => { d with parent := some p }

/-- How `New`, `InnerDuplicate` and `DupEmptyNode` make a node. -/
def newNode (newOk : Bool) (v : NodeInit) (m : NodeMem) : Option (Option ℕ × NodeMem) :=
  match m.new newOk with
  | (some n, m) =>
    let m := initNode v n m
    if v.ok then some (some n, m) else (m.delete (m.fresh + 1) n).map fun m => (none, m)
  | (none, m) => some (none, m)

/-- Some of the lists of a node are deleted. -/
def dropLists (n : ℕ) : List NodeList → NodeMem → Option NodeMem
  | [], m => some m
  | k :: ks, m => (m.deleteList (n, k)).bind (dropLists n ks)

/-- A field that is found in a message: whether `New` succeeds, and what `InitNode` is given. -/
structure NodeField extends NodeInit where
  /-- Does `New` succeed? -/
  newOk : Bool := true

/-- The list for a field. -/
def NodeField.list (f : NodeField) : NodeList := if f.tag ≤ ucMaxMetaNum then .metas else .children

/-- A turn of the loop of `InnerExpand`, and whether it goes on. -/
def expandField (n : ℕ) (f : NodeField) (m : NodeMem) : Option (Bool × NodeMem) :=
  (m.newLast f.newOk (n, f.list)).map fun
    | (some c, m) =>
      let m := initNode f.toNodeInit c m
      if f.ok then
        let m := setParent c n m
        (true, if f.list = .children then setChildNum n ((m.data n).childNum + 1) m else m)
      else (false, m)
    | (none, m) => (false, m)

/-- The loop of `InnerExpand`. -/
def expandFields (n : ℕ) : List NodeField → NodeMem → Option (Bool × NodeMem)
  | [], m => some (true, m)
  | f :: fs, m => (m.expandField n f).bind fun (ok, m) => if ok then expandFields n fs m else some (false, m)

/-- `InnerExpand`, of a value with these fields, that ends correctly or not. -/
def innerExpand (n : ℕ) (fs : List NodeField) (eom : Bool) (m : NodeMem) : Option NodeMem :=
  if 0 ≤ (m.data n).childNum then some m
  else ((m.initChildList n 0).expandFields n fs).bind fun (ok, m) =>
    if ok && eom then some m else (m.setChildNum n 0).dropLists n [.children, .metas]

/-- `Fold`, of a node that has been written to, when there is memory. -/
def fold (n : ℕ) (m : NodeMem) : Option NodeMem :=
  -- a leaf does not need to be folded
  if (m.data n).childNum < 0 ∨ (m.data n).childNum = 0 ∧ m.first (n, .metas) = none then some m
  else (m.setChildNum n (-1)).dropLists n [.metas, .children]

/-- How `SetValue`, and `SetMeta` for a meta that is there, forget what has been expanded. -/
def forget (n : ℕ) (childnum : ℤ) (m : NodeMem) : Option NodeMem :=
  if 0 ≤ (m.data n).childNum then (m.dropLists n [.children, .metas]).map (setChildNum n childnum) else some m

/-- How `SetMeta` and `AddMeta` make a meta of a node, which is expanded. -/
def newMeta (n : ℕ) (front : Bool) (f : NodeField) (m : NodeMem) : Option NodeMem :=
  (if front then some (m.newFront f.newOk (n, .metas)) else m.newLast f.newOk (n, .metas)).bind fun
    | (some c, m) =>
      let m := initNode f.toNodeInit c m
      if f.ok then some (setParent c n m) else PoolMem.deleteFrom release (n, .metas) c m
    | (none, m) => some m

/-- How `INSERT_CHILD` links a node. -/
def linkChild (p c : ℕ) (atTail : Bool) (m : NodeMem) : Option NodeMem :=
  let m := m.setNext c none
  match m.first (p, NodeList.children) with
  | some ic =>
    if atTail then (m.prev ic).map fun lc => ((m.setNext lc (some c)).setPrev c (some lc)).setPrev ic (some c)
    -- in front
    else some ((((m.setPrev c (m.prev ic)).setNext c (some ic)).setPrev ic (some c)).setFirst (p, .children) (some c))
  | none => some ((m.setFirst (p, .children) (some c)).setPrev c (some c))

/-- `InsertChild` of a node that the parent, which is expanded, takes over. -/
def insertChild (p c : ℕ) (atTail : Bool) (m : NodeMem) : Option NodeMem :=
  (linkChild p c atTail (m.setParent c p)).map fun m => setChildNum p ((m.data p).childNum + 1) m

/-- `RemoveChildByPos`, and a turn of the loop of `RemoveChildrenByTag`. -/
def removeChild (p c : ℕ) (m : NodeMem) : Option NodeMem :=
  (PoolMem.deleteFrom release (p, .children) c m).map fun m => setChildNum p ((m.data p).childNum - 1) m

/-- `DetachChild`. -/
def detachChild (p c : ℕ) (m : NodeMem) : Option NodeMem :=
  (m.detach (p, .children) c).map fun m => setChildNum p ((m.data p).childNum - 1) m

/-- `Remove`. -/
def remove (c : ℕ) (m : NodeMem) : Option NodeMem :=
  match (m.data c).parent with
  | none => m.delete (m.fresh + 1) c
  | some p => m.removeChild p c

/-- `Detach`. -/
def detachNode (c : ℕ) (m : NodeMem) : Option NodeMem :=
  match (m.data c).parent with
  | none => some m
  | some p => m.detachChild p c

/-- `InnerRemoveMeta`, and a turn of the loop of `RemoveMetaByTag`. -/
def removeMeta (n c : ℕ) (m : NodeMem) : Option NodeMem := PoolMem.deleteFrom release (n, .metas) c m

/-- `SetTag`. -/
def setTag (n : ℕ) (t : UInt32) (m : NodeMem) : NodeMem :=
  if t = 0 ∨ (m.data n).tag = 0 then m else m.setData n fun d => { d with tag := t }

/-! ### What holds of the nodes -/

variable {m m' : NodeMem} {heads heads' : ℕ × NodeList → Option ℕ} {S S' : NodeStore} {n c o : ℕ} {k : NodeList}

/-- A node is somewhere: it stands alone, or is in a list. -/
def Placed (S : NodeStore) (o : ℕ) : Prop := o ∈ S.alone ∨ ∃ i, o ∈ S.lists i

/-- The nodes form trees. -/
structure Forest (m : NodeMem) (heads : ℕ × NodeList → Option ℕ) (S : NodeStore) : Prop where
  /-- The lists. -/
  stored : Stored m heads S
  /-- A node that is nowhere is not expanded. -/
  closed : ∀ o, ¬Placed S o → (m.data o).childNum < 0
  /-- What is in a list is below a node that stands alone. -/
  rooted : ∀ i, ∀ o ∈ S.lists i, S.Under S.alone o

/-- `child_num` is the number of children. -/
def Counted (m : NodeMem) (S : NodeStore) (d : ℕ) : Prop :=
  0 ≤ (m.data d).childNum → (m.data d).childNum = (S.lists (d, .children)).length

/-- The nodes form trees, and know how many children they have. -/
structure Trees (m : NodeMem) (S : NodeStore) : Prop where
  /-- The trees. -/
  forest : Forest m m.heads S
  /-- The numbers. -/
  counts : ∀ d, Counted m S d

theorem Forest.under (h : Forest m heads S) (ho : Placed S o) : S.Under S.alone o := by
  rcases ho with ho | ⟨i, ho⟩
  · exact under_of_mem ho
  · exact h.rooted i o ho

/-- A node is in one list. -/
theorem kid_unique (h : Stored m heads S) {a b : ℕ} (ha : S.Kid a o) (hb : S.Kid b o) : a = b := by
  obtain ⟨j, hj⟩ := ha
  obtain ⟨k, hk⟩ := hb
  exact congrArg Prod.fst (h.apart _ _ o hj hk)

/-- **No node is below itself.** -/
theorem Forest.acyclic (h : Forest m heads S) (hn : Placed S n) : ¬S.Under (S.below n) n := by
  have hcycle : ∀ o, S.Under S.alone o → ¬Relation.TransGen S.Kid o o := by
    rintro o ⟨r, hr, hpath⟩
    -- along the path from the root: a cycle at a node would pass through the node before it
    induction hpath with
    | refl =>
      intro hloop
      obtain ⟨a, -, ha⟩ := Relation.TransGen.tail'_iff.mp hloop
      exact not_kid_of_alone h.stored hr a ha
    | @tail b o _ hbo ih =>
      intro hloop
      obtain ⟨a, hoa, ha⟩ := Relation.TransGen.tail'_iff.mp hloop
      rw [kid_unique h.stored ha hbo] at hoa
      exact ih (.head' hbo hoa)
  rintro ⟨b, hb, hpath⟩
  exact hcycle n (h.under hn) (.head' (mem_below.mp hb) hpath)

/-- A node that is not expanded has no lists. -/
theorem lists_of_closed (h : Stored m heads S) (ha : Agrees heads m o) (ho : (m.data o).childNum < 0) (k : NodeList) :
    S.lists (o, k) = [] := by
  have hring := h.ring (o, k)
  rwa [ha k, NodeMem.heads, if_pos ho, ring_none_iff] at hring

/-- What has a list is expanded. -/
theorem open_of_mem (h : Stored m heads S) (ha : Agrees heads m n) (hc : c ∈ S.lists (n, k)) : 0 ≤ (m.data n).childNum := by
  by_contra hclosed
  rw [lists_of_closed h ha (Int.not_le.mp hclosed)] at hc
  exact List.not_mem_nil hc

theorem Forest.of_agrees (h : Forest m heads S) (ha : ∀ d, Agrees heads m d) : Forest m m.heads S := by
  have hheads : heads = m.heads := funext fun i => ha i.1 i.2
  exact hheads ▸ h

theorem heads_of_open (ho : 0 ≤ (m.data n).childNum) : m.heads (n, k) = m.first (n, k) := if_neg (Int.not_lt.mpr ho)

/-- What is freed leaves trees behind. -/
theorem Freed.forest {L rest F : List ℕ} (hf : Freed L rest F m m' heads heads' S S') (h : Forest m heads S)
    (hall : ∀ o ∈ S.alone, o ∈ L ∨ o ∈ rest) : Forest m' heads' S' where
  stored := hf.stored
  closed o ho := by
    by_cases hF : o ∈ F
    · rw [hf.cleared.closed o hF]
      decide
    · rw [hf.cleared.data o hF]
      refine h.closed o fun hplaced => ho ?_
      rcases hplaced with ha | ⟨⟨a, k⟩, hk⟩
      · exact .inl (hf.alone ▸ (hall o ha).resolve_left fun hL => hF ((hf.under o).mp (under_of_mem hL)))
      · refine .inr ⟨(a, k), ?_⟩
        rw [hf.cleared.emptied a k, if_neg fun ha => hF (hf.closed ha ⟨k, hk⟩)]
        exact hk
  rooted i o ho := by
    obtain ⟨a, k⟩ := i
    have hin : o ∉ F := fun hF => hf.stored.listed _ o ho (List.mem_append_right _ (hf.free ▸ List.mem_append_left _ hF))
    have hold : o ∈ S.lists (a, k) := by
      rw [hf.cleared.emptied a k] at ho
      split at ho
      · exact absurd ho List.not_mem_nil
      · exact ho
    rcases under_emptied hf.cleared.emptied (fun a ha b => hf.closed ha) (h.rooted _ o hold) with hF | ⟨r, hr, hpath⟩
    · exact absurd hF hin
    · rcases hall r hr with hL | hrest
      · have hrF := (hf.under r).mp (under_of_mem hL)
        rcases hpath.cases_head with rfl | ⟨b, hb, -⟩
        · exact absurd hrF hin
        · exact absurd hrF (hf.cleared.emptied.kid.mp hb).1
      · exact ⟨r, hf.alone ▸ hrest, hpath⟩

theorem Freed.counted {L rest F : List ℕ} (hf : Freed L rest F m m' heads heads' S S') {d : ℕ} (hd : Counted m S d) :
    Counted m' S' d := by
  intro hopen
  by_cases hF : d ∈ F
  · rw [hf.cleared.closed d hF] at hopen
    exact absurd hopen (by decide)
  · rw [hf.cleared.data d hF] at hopen ⊢
    rw [hf.cleared.emptied d _, if_neg hF]
    exact hd hopen

/-- `Delete` of a tree leaves the other trees. -/
theorem Trees.delete {turns r : ℕ} (h : Trees m S) (hr : r ∈ S.alone) (hturns : m.fresh < turns) :
    ∃ m' S' F, m.delete turns r = some m' ∧ Trees m' S' ∧ S'.alone = S.alone.erase r ∧ S'.free = F ++ S.free ∧
      ∀ o, S.Under [r] o ↔ o ∈ F := by
  obtain ⟨m', heads', S', F, hm', hf⟩ := delete_spec h.forest.stored hr (fun _ _ _ => rfl) hturns
  have hall : ∀ o ∈ S.alone, o ∈ [r] ∨ o ∈ S.alone.erase r := fun o ho => by
    by_cases hor : o = r
    · exact .inl (List.mem_singleton.mpr hor)
    · exact .inr ((List.mem_erase_of_ne hor).mpr ho)
  have hagree : ∀ d, Agrees heads' m' d := fun d => hf.cleared.agrees (fun _ => rfl) fun hd => hf.first d hd
  exact ⟨m', S', r :: F, hm', ⟨(hf.forest h.forest hall).of_agrees hagree, fun d => hf.counted (h.counts d)⟩,
    hf.alone, hf.free,
    hf.under⟩

/-! ### What a change leaves -/

@[simp] theorem data_setData_self (n : ℕ) (f : NodeData → NodeData) (m : NodeMem) : (m.setData n f).data n = f (m.data n) :=
  Function.update_self ..

theorem data_setData_of_ne {d : ℕ} (h : d ≠ n) (f : NodeData → NodeData) (m : NodeMem) : (m.setData n f).data d = m.data d :=
  Function.update_of_ne h ..

/-- What is in a node may change, when it stays as expanded as it was. -/
theorem Forest.setData (h : Forest m m.heads S) {f : NodeData → NodeData}
    (hsign : (f (m.data n)).childNum < 0 ↔ (m.data n).childNum < 0) : Forest (m.setData n f) (m.setData n f).heads S := by
  have hchild : ∀ d, ((m.setData n f).data d).childNum < 0 ↔ (m.data d).childNum < 0 := fun d => by
    by_cases hd : d = n
    · rw [hd, data_setData_self, hsign]
    · rw [data_setData_of_ne hd]
  have hheads : (m.setData n f).heads = m.heads := funext fun i => if_congr (hchild i.1) rfl rfl
  rw [hheads]
  exact ⟨h.stored.congr rfl rfl rfl rfl, fun o ho => (hchild o).mpr (h.closed o ho), h.rooted⟩

/-- The number of children of a node that is expanded may change. -/
theorem Forest.setChildNum (h : Forest m m.heads S) (ho : 0 ≤ (m.data n).childNum) {v : ℤ} (hv : 0 ≤ v) :
    Forest (m.setChildNum n v) (m.setChildNum n v).heads S :=
  h.setData (iff_of_false (Int.not_lt.mpr hv) (Int.not_lt.mpr ho))

theorem Counted.setData {d : ℕ} (h : Counted m S d) (hd : d ≠ n) (f : NodeData → NodeData) :
    Counted (m.setData n f) S d := by
  rw [Counted, data_setData_of_ne hd]
  exact h

/-- The lists of a node become `l`, other nodes are still counted right. -/
structure Edited (n : ℕ) (alone : List ℕ) (l : NodeList → List ℕ) (m m' : NodeMem) (S S' : NodeStore) : Prop where
  /-- The trees. -/
  forest : Forest m' m'.heads S'
  /-- What stands alone. -/
  alone : S'.alone = alone
  /-- The lists of the node. -/
  lists : ∀ k, S'.lists (n, k) = l k
  /-- What is in it. -/
  data : m'.data n = m.data n
  /-- The other nodes. -/
  counts : ∀ d, d ≠ n → Counted m S d → Counted m' S' d

/-- When the number is put right, the nodes form trees again. -/
theorem Edited.trees {alone : List ℕ} {l : NodeList → List ℕ} (h : Edited n alone l m m' S S') (ht : Trees m S) {v : ℤ}
    (hv : v = (l .children).length) (ho : 0 ≤ (m.data n).childNum) : Trees (m'.setChildNum n v) S' where
  forest := h.forest.setChildNum (h.data ▸ ho) (hv ▸ Int.natCast_nonneg _)
  counts d := by
    by_cases hd : d = n
    · subst hd
      rw [Counted, NodeMem.setChildNum, data_setData_self, h.lists]
      exact fun _ => hv
    · exact (h.counts d hd (ht.counts d)).setData hd _

/-- What is below a list stays below what stands alone, when the nodes of the list are put there. -/
theorem under_unlist {S S' : NodeStore} (halone : ∀ a ∈ S.alone, a ∈ S'.alone)
    (hkid : ∀ a b, S.Kid a b → S'.Kid a b ∨ b ∈ S'.alone)
    (h : S.Under S.alone o) : S'.Under S'.alone o := by
  obtain ⟨r, hr, hpath⟩ := h
  induction hpath with
  | refl => exact under_of_mem (halone r hr)
  | @tail a b _ hab ih =>
    rcases hkid a b hab with hab' | hb
    · exact ih.tail hab'
    · exact under_of_mem hb

/-- A node is taken out of its list. -/
theorem Forest.unlink (h : Forest m m.heads S) (hc : c ∈ S.lists (n, k)) :
    ∃ m' : NodeMem, m.unlink (n, k) c = some m' ∧ m'.data = m.data ∧
      Forest m' m'.heads (S.relist (n, k) ((S.lists (n, k)).erase c) (c :: S.alone)) := by
  have hopen := open_of_mem h.stored (fun _ => rfl) hc
  obtain ⟨m', hm', hS, hlist⟩ := PoolMem.unlink_spec h.stored (heads_of_open hopen) hc
  have hlists : ∀ j, (S.relist (n, k) ((S.lists (n, k)).erase c) (c :: S.alone)).lists j =
      if j = (n, k) then (S.lists (n, k)).erase c else S.lists j := fun j => by
    split
    · next hj => rw [hj, Store.lists_relist_self]
    · next hj => rw [Store.lists_relist_of_ne hj]
  refine ⟨m', hm', hlist.data, Forest.of_agrees ⟨hS, fun o ho => ?_, fun i o ho => ?_⟩ fun d k' => ?_⟩
  · rw [hlist.data]
    refine h.closed o fun hplaced => ho ?_
    rcases hplaced with ha | ⟨i, hi⟩
    · exact .inl (List.mem_cons_of_mem _ ha)
    · by_cases hoc : o = c
      · exact .inl (hoc ▸ List.mem_cons_self ..)
      · refine .inr ⟨i, ?_⟩
        rw [hlists]
        split
        · next hin => exact (List.mem_erase_of_ne hoc).mpr (hin ▸ hi)
        · exact hi
  · have hold : o ∈ S.lists i := by
      rw [hlists] at ho
      split at ho
      · next hin => exact hin ▸ List.mem_of_mem_erase ho
      · exact ho
    refine under_unlist (fun a ha => List.mem_cons_of_mem _ ha) (fun a b ⟨k', hb⟩ => ?_) (h.rooted i o hold)
    by_cases hbc : b = c
    · exact .inr (hbc ▸ List.mem_cons_self ..)
    · refine .inl ⟨k', ?_⟩
      rw [hlists]
      split
      · next hin => exact (List.mem_erase_of_ne hbc).mpr (hin ▸ hb)
      · exact hb
  · by_cases hi : (d, k') = (n, k)
    · rw [hi, Function.update_self, heads_of_open (by rwa [hlist.data])]
    · rw [Function.update_of_ne hi, NodeMem.heads, NodeMem.heads, hlist.data, hlist.first _ hi]

/-- What is expanded is somewhere. -/
theorem Forest.placed_of_open (h : Forest m heads S) (ho : 0 ≤ (m.data n).childNum) : Placed S n := by
  by_contra hplaced
  exact Int.not_lt.mpr ho (h.closed n hplaced)

/-- The lists of a node, of which one loses a node. -/
def without (S : NodeStore) (n : ℕ) (k : NodeList) (c : ℕ) (k' : NodeList) : List ℕ :=
  if k' = k then (S.lists (n, k)).erase c else S.lists (n, k')

theorem lists_unlink (alone : List ℕ) (d : ℕ) (k' : NodeList) :
    (S.relist (n, k) ((S.lists (n, k)).erase c) alone).lists (d, k') =
    if d = n then without S n k c k' else S.lists (d, k') := by
  by_cases hd : d = n
  · subst hd
    rw [if_pos rfl, without]
    split
    · next hk => rw [hk, Store.lists_relist_self]
    · next hk => rw [Store.lists_relist_of_ne (by simp [hk])]
  · rw [if_neg hd, Store.lists_relist_of_ne (by simp [hd])]

theorem mem_of_unlink {alone : List ℕ} {i : ℕ × NodeList}
    (h : o ∈ (S.relist (n, k) ((S.lists (n, k)).erase c) alone).lists i) :
    o ∈ S.lists i := by
  by_cases hi : i = (n, k)
  · rw [hi, Store.lists_relist_self] at h
    exact hi ▸ List.mem_of_mem_erase h
  · rwa [Store.lists_relist_of_ne hi] at h

/-- **A node is removed from its list, and deleted.** -/
theorem deleteFrom_spec (h : Forest m m.heads S) (hc : c ∈ S.lists (n, k)) :
    ∃ m' S', PoolMem.deleteFrom release (n, k) c m = some m' ∧ Edited n S.alone (without S n k c) m m' S S' := by
  obtain ⟨m₀, hm₀, hdata, h₀⟩ := h.unlink hc
  obtain ⟨m', heads', S', F, hm', hf⟩ := delete_spec h₀.stored (List.mem_cons_self ..) (fun _ _ _ => rfl)
    (Nat.lt_succ_self m₀.fresh)
  rw [Store.alone_relist, List.erase_cons_head] at hf
  have hn : n ∉ c :: F := fun hF => by
    have hold := ((hf.under n).mpr hF).mono (fun a ha => under_of_mem ha) fun a b ⟨k', hb⟩ => ⟨k', mem_of_unlink hb⟩
    refine h.acyclic (h.placed_of_open (open_of_mem h.stored (fun _ => rfl) hc)) (hold.mono (fun a ha => ?_) fun _ _ => id)
    exact under_of_mem (List.mem_singleton.mp ha ▸ mem_below.mpr ⟨k, hc⟩)
  have hagree : ∀ d, Agrees heads' m' d := fun d => hf.cleared.agrees (fun _ => rfl) fun hd => hf.first d hd
  have hall : ∀ o ∈ c :: S.alone, o ∈ [c] ∨ o ∈ S.alone := fun o ho => by simpa using ho
  refine ⟨m', S', by rw [PoolMem.deleteFrom, hm₀, Option.bind_some]; exact hm',
    (hf.forest h₀ hall).of_agrees hagree, hf.alone,
    fun k' => ?_, (hf.cleared.data n hn).trans (congrFun hdata n), fun d hd hcount => hf.counted ?_⟩
  · rw [hf.cleared.emptied, if_neg hn, lists_unlink, if_pos rfl]
  · rw [Counted, hdata, lists_unlink, if_neg hd]
    exact hcount

/-- **A node is taken out of its list, and stands alone.** -/
theorem detach_spec (h : Forest m m.heads S) (hc : c ∈ S.lists (n, k)) :
    ∃ m' S', m.detach (n, k) c = some m' ∧ Edited n (c :: S.alone) (without S n k c) m m' S S' := by
  obtain ⟨m₀, hm₀, hdata, h₀⟩ := h.unlink hc
  refine ⟨(m₀.setNext c none).setPrev c none, _, by rw [PoolMem.detach, hm₀, Option.map_some],
    ⟨PoolMem.links_spec h₀.stored (List.mem_cons_self ..) none none, h₀.closed, h₀.rooted⟩, rfl, fun k' => ?_,
    congrFun hdata n, fun d hd hcount => ?_⟩
  · rw [lists_unlink, if_pos rfl]
  · show Counted m₀ _ d
    rw [Counted, hdata, lists_unlink, if_neg hd]
    exact hcount

theorem length_without (hc : c ∈ S.lists (n, k)) : ((without S n k c k).length : ℤ) = (S.lists (n, k)).length - 1 := by
  have hlen := List.length_pos_of_mem hc
  rw [without, if_pos rfl, List.length_erase_of_mem hc]
  omega

/-- **`RemoveChildByPos`** leaves trees. -/
theorem Trees.removeChild (h : Trees m S) (hc : c ∈ S.lists (n, .children)) :
    ∃ m' S', m.removeChild n c = some m' ∧ Trees m' S' ∧ S'.alone = S.alone := by
  obtain ⟨m', S', hm', he⟩ := deleteFrom_spec h.forest hc
  have ho := open_of_mem h.forest.stored (fun _ => rfl) hc
  refine ⟨_, S', by rw [NodeMem.removeChild, hm', Option.map_some], he.trees h ?_ ho, he.alone⟩
  rw [he.data, h.counts n ho, length_without hc]

/-- **`DetachChild`** leaves trees, one more of them. -/
theorem Trees.detachChild (h : Trees m S) (hc : c ∈ S.lists (n, .children)) :
    ∃ m' S', m.detachChild n c = some m' ∧ Trees m' S' ∧ S'.alone = c :: S.alone := by
  obtain ⟨m', S', hm', he⟩ := detach_spec h.forest hc
  have ho := open_of_mem h.forest.stored (fun _ => rfl) hc
  refine ⟨_, S', by rw [NodeMem.detachChild, hm', Option.map_some], he.trees h ?_ ho, he.alone⟩
  rw [he.data, h.counts n ho, length_without hc]

/-- **`InnerRemoveMeta`** leaves trees. -/
theorem Trees.removeMeta (h : Trees m S) (hc : c ∈ S.lists (n, .metas)) :
    ∃ m' S', m.removeMeta n c = some m' ∧ Trees m' S' ∧ S'.alone = S.alone := by
  obtain ⟨m', S', hm', he⟩ := deleteFrom_spec h.forest hc
  refine ⟨m', S', hm', ⟨he.forest, fun d => ?_⟩, he.alone⟩
  by_cases hd : d = n
  · subst hd
    rw [Counted, he.data, he.lists]
    exact h.counts d
  · exact he.counts d hd (h.counts d)

/-! ### Deleting both lists of a node -/

theorem lists_clear (n d : ℕ) (k : NodeList) (S : NodeStore) :
    (S.clear n).lists (d, k) = if d = n then [] else S.lists (d, k) := by
  rw [emptied_clear n S d k]
  exact if_congr List.mem_singleton rfl rfl

/-- Where the lists of a node are taken away from it, there are still trees. -/
theorem Forest.clear (h : Forest m m.heads S) (hn : Placed S n) (hdata : ∀ d, d ≠ n → m'.data d = m.data d)
    (hstored : Stored m' heads' (S.clear n)) : Forest m' heads' (S.clear n) where
  stored := hstored
  closed o ho := by
    have hplaced : ¬Placed S o := by
      rintro (ha | ⟨⟨a, k⟩, hk⟩)
      · exact ho (.inl (List.mem_append_right _ ha))
      · by_cases han : a = n
        · exact ho (.inl (List.mem_append_left _ (han ▸ mem_below.mpr ⟨k, hk⟩)))
        · exact ho (.inr ⟨(a, k), by rwa [lists_clear, if_neg han]⟩)
    rw [hdata o fun hon => hplaced (hon ▸ hn)]
    exact h.closed o hplaced
  rooted i o ho := by
    obtain ⟨d, k⟩ := i
    rw [lists_clear] at ho
    split at ho
    · exact absurd ho List.not_mem_nil
    · refine under_unlist (fun a ha => List.mem_append_right _ ha) (fun a b hab => ?_) (h.rooted (d, k) o ho)
      by_cases han : a = n
      · exact .inr (List.mem_append_left _ (han ▸ mem_below.mpr hab))
      · exact .inl ((emptied_clear n S).kid.mpr ⟨fun hmem => han (List.mem_singleton.mp hmem), hab⟩)

/-- **Both lists of a node are deleted**, in any order, and `child_num` is set before or after. -/
theorem dropLists_spec (h : Forest m m.heads S) (ho : 0 ≤ (m.data n).childNum) (hcounts : ∀ d, d ≠ n → Counted m S d)
    {k k' : NodeList} (hk : k ≠ k') (f : NodeData → NodeData) : ∃ m' S', (m.setData n f).dropLists n [k, k'] = some m' ∧
      S'.alone = S.alone ∧ m'.data n = f (m.data n) ∧
      ∀ g : NodeData → NodeData, (g (m'.data n)).childNum ≤ 0 → Trees (m'.setData n g) S' := by
  have hplaced := h.placed_of_open ho
  have hdata : ∀ d, d ≠ n → (m.setData n f).data d = m.data d := fun d hd => data_setData_of_ne hd f m
  have hstored : Stored (m.setData n f) m.heads S := h.stored.congr rfl rfl rfl rfl
  have hnot := h.acyclic hplaced
  have hagree : ∀ d, d ≠ n → Agrees m.heads (m.setData n f) d := fun d hd k => by
    rw [NodeMem.heads, NodeMem.heads, hdata d hd]
    rfl
  have hself : ∀ d, S.Under (S.below n) d → d ≠ n := by
    rintro d hd rfl
    exact hnot hd
  obtain ⟨m₁, m₂, heads₂, S₂, F, hm₁, hm₂, hf⟩ := FreesList.both (freesList_deleteList (m.fresh + 1)) hk hstored
    (fun d hd => hagree d (hself d hd)) hnot (fun _ => heads_of_open ho) (Nat.lt_succ_self _)
  have hnF : n ∉ F := fun hF => hnot (Under.of_emptied (emptied_clear n S) ((hf.under n).mpr hF))
  have hclear : Forest (((m.setData n f).setFirst (n, k) none).setFirst (n, k') none) (headsWithout n m.heads) (S.clear n) :=
    h.clear hplaced hdata ((Stored.clear hstored n).congr rfl rfl rfl rfl)
  have hforest := hf.forest hclear fun o ho => List.mem_append.mp ho
  have hself₂ : m₂.data n = f (m.data n) := (hf.cleared.data n hnF).trans (data_setData_self n f m)
  have hset : ∀ (m : NodeMem) {d : ℕ}, d ≠ n → ∀ j j', (m.setFirst (n, j') none).first (d, j) = m.first (d, j) :=
    fun _ _ hdn _ _ => Function.update_of_ne (by simp [hdn]) _ _
  have hnone : ∀ j, m₂.first (n, j) = none := fun j => by
    rw [hf.first n hnF j]
    by_cases hj : j = k'
    · rw [hj]
      exact Function.update_self ..
    · obtain rfl : j = k := by cases j <;> cases k <;> cases k' <;> simp_all
      exact (Function.update_of_ne (by simp [hj]) _ _).trans (Function.update_self ..)
  have hempty : ∀ j, S₂.lists (n, j) = [] := fun j => by rw [hf.cleared.emptied, if_neg hnF, lists_clear, if_pos rfl]
  refine ⟨m₂, S₂, ?_, hf.alone, hself₂, fun g hg => ⟨Forest.of_agrees ⟨hforest.stored.congr rfl rfl rfl rfl, ?_,
    hforest.rooted⟩ fun d j => ?_, fun d => ?_⟩⟩
  · rw [dropLists, hm₁, Option.bind_some, dropLists, hm₂, Option.bind_some, dropLists]
  · intro o hnowhere
    have hplaced₂ : Placed S₂ n := by
      rcases hplaced with ha | ⟨⟨a, j⟩, hj⟩
      · exact .inl (hf.alone ▸ ha)
      · have han : a ≠ n := by
          rintro rfl
          exact hnot (under_of_mem (mem_below.mpr ⟨j, hj⟩))
        have hj' : n ∈ (S.clear n).lists (a, j) := by rwa [lists_clear, if_neg han]
        exact .inr ⟨(a, j), by rwa [hf.cleared.emptied, if_neg fun haF => hnF (hf.closed haF ⟨j, hj'⟩)]⟩
    have hon : o ≠ n := fun hon => hnowhere (hon ▸ hplaced₂)
    rw [data_setData_of_ne hon]
    exact hforest.closed o hnowhere
  · by_cases hd : d = n
    · subst hd
      rw [hf.cleared.heads, if_neg hnF, headsWithout_eq, if_pos rfl, NodeMem.heads]
      exact (ite_eq_left_iff.mpr fun _ => hnone j).symm
    · have hagree₂ := (cleared_setFirst_iff.mp (cleared_setFirst_iff.mp hf.cleared)).agrees
        (fun j => by rw [headsWithout_eq, if_neg hd]; exact hagree d hd j)
        (fun hdF j => (hf.first d hdF j).trans ((hset _ hd ..).trans (hset _ hd ..))) j
      rw [hagree₂, NodeMem.heads, NodeMem.heads, data_setData_of_ne hd]
      rfl
  · by_cases hd : d = n
    · subst hd
      rw [Counted, data_setData_self, hempty]
      exact fun hopen => le_antisymm hg hopen
    · refine Counted.setData (hf.counted ?_) hd g
      show Counted (m.setData n f) (S.clear n) d
      rw [Counted, hdata d hd, lists_clear, if_neg hd]
      exact hcounts d hd

theorem setData_id (n : ℕ) (m : NodeMem) : m.setData n (fun d => d) = m := by
  rw [setData, Function.update_eq_self]

/-- **`Fold`** leaves trees. -/
theorem Trees.fold (h : Trees m S) (n : ℕ) : ∃ m' S', m.fold n = some m' ∧ Trees m' S' ∧ S'.alone = S.alone := by
  unfold NodeMem.fold
  split
  · exact ⟨m, S, rfl, h, rfl⟩
  · next hleaf =>
    have ho := Int.not_lt.mp (not_or.mp hleaf).1
    obtain ⟨m', S', hm', halone, hdata, htrees⟩ := dropLists_spec h.forest ho (fun d _ => h.counts d)
      (by decide : NodeList.metas ≠ .children) fun d => { d with childNum := -1 }
    have hall := htrees (fun d => d) (by rw [hdata]; exact (by decide : (-1 : ℤ) ≤ 0))
    rw [setData_id] at hall
    exact ⟨m', S', hm', hall, halone⟩

/-- **`SetValue`** leaves trees. -/
theorem Trees.forget (h : Trees m S) (n : ℕ) {v : ℤ} (hv : v ≤ 0) :
    ∃ m' S', m.forget n v = some m' ∧ Trees m' S' ∧ S'.alone = S.alone := by
  unfold NodeMem.forget
  split
  · next ho =>
    obtain ⟨m', S', hm', halone, -, htrees⟩ := dropLists_spec h.forest ho (fun d _ => h.counts d)
      (by decide : NodeList.children ≠ .metas) fun d => d
    rw [setData_id] at hm'
    exact ⟨m'.setChildNum n v, S', by rw [hm', Option.map_some], htrees (fun d => { d with childNum := v }) hv, halone⟩
  · exact ⟨m, S, rfl, h, rfl⟩

/-- `SetTag` leaves trees. -/
theorem Trees.setTag (h : Trees m S) (n : ℕ) (t : UInt32) : Trees (m.setTag n t) S := by
  unfold NodeMem.setTag
  split
  · exact h
  · refine ⟨h.forest.setData Iff.rfl, fun d => ?_⟩
    by_cases hd : d = n
    · subst hd
      rw [Counted, data_setData_self]
      exact h.counts d
    · exact (h.counts d).setData hd _

/-! ### Making nodes -/

theorem Forest.setParent (h : Forest m m.heads S) (c p : ℕ) : Forest (m.setParent c p) (m.setParent c p).heads S :=
  h.setData Iff.rfl

theorem childNum_setParent (c p d : ℕ) (m : NodeMem) : ((m.setParent c p).data d).childNum = (m.data d).childNum := by
  by_cases hd : d = c
  · rw [hd, NodeMem.setParent, data_setData_self]
  · rw [NodeMem.setParent, data_setData_of_ne hd]

theorem Counted.setParent {d : ℕ} (h : Counted m S d) (c p : ℕ) : Counted (m.setParent c p) S d := by
  rw [Counted, childNum_setParent]
  exact h

/-- A node that is not expanded gets empty lists. -/
theorem Forest.initChildList (h : Forest m m.heads S) (hc : (m.data c).childNum < 0) (hplaced : Placed S c) (v : ℤ) :
    Forest (m.initChildList c v) (m.initChildList c v).heads S := by
  have hdata : ∀ d, d ≠ c → (m.initChildList c v).data d = m.data d := fun d hd =>
    data_setData_of_ne hd (fun d => { d with childNum := v }) m
  have hsame : Forest (m.initChildList c v) m.heads S := by
    refine ⟨h.stored.congr rfl rfl rfl rfl, fun o ho => ?_, h.rooted⟩
    have hoc : o ≠ c := fun hoc => by
      subst hoc
      exact ho hplaced
    rw [hdata o hoc]
    exact h.closed o ho
  refine hsame.of_agrees fun d k => ?_
  by_cases hd : d = c
  · subst hd
    have hnone : (m.initChildList d v).first (d, k) = none := by
      cases k with
      | metas => exact Function.update_self ..
      | children => exact (Function.update_of_ne (by simp) _ _).trans (Function.update_self ..)
    rw [NodeMem.heads, if_pos hc, NodeMem.heads, hnone, ite_self]
  · have hfirst : (m.initChildList c v).first (d, k) = m.first (d, k) :=
      (Function.update_of_ne (by simp [hd]) _ _).trans (Function.update_of_ne (by simp [hd]) _ _)
    rw [NodeMem.heads, NodeMem.heads, hdata d hd, hfirst]

theorem data_initNode_of_ne {d : ℕ} (hd : d ≠ c) (v : NodeInit) (m : NodeMem) : (initNode v c m).data d = m.data d := by
  have htag := data_setData_of_ne hd (fun d => { d with tag := v.tag, parent := none }) m
  unfold initNode
  split
  · exact (data_setData_of_ne hd (fun d => { d with childNum := if v.leaf then 0 else -1 }) _).trans htag
  · exact htag

/-- What `InitNode` makes of `child_num`, when it has been -1. -/
theorem childNum_initNode_le (hc : (m.data c).childNum < 0) (v : NodeInit) : ((initNode v c m).data c).childNum ≤ 0 := by
  unfold initNode
  split
  · show ((NodeMem.setChildNum c _ _).data c).childNum ≤ 0
    rw [setChildNum, data_setData_self]
    show (if v.leaf then (0 : ℤ) else -1) ≤ 0
    split <;> decide
  · rw [data_setData_self]
    exact Int.le_of_lt hc

/-- **`InitNode`** of a node that is somewhere, and has no lists yet. -/
theorem Forest.initNode (h : Forest m m.heads S) (hc : (m.data c).childNum < 0) (hplaced : Placed S c) (v : NodeInit) :
    Forest (NodeMem.initNode v c m) (NodeMem.initNode v c m).heads S := by
  have htag := h.setData (n := c) (f := fun d => { d with tag := v.tag, parent := none }) Iff.rfl
  unfold NodeMem.initNode
  split
  · exact htag.initChildList (by rwa [data_setData_self]) hplaced _
  · exact htag

theorem counted_initNode (h : Forest m m.heads S) (hc : (m.data c).childNum < 0) (v : NodeInit) :
    Counted (initNode v c m) S c := by
  rw [Counted, lists_of_closed h.stored (fun _ => rfl) hc]
  exact fun ho => le_antisymm (childNum_initNode_le hc v) ho

theorem Counted.initNode {d : ℕ} (h : Counted m S d) (hd : d ≠ c) (v : NodeInit) : Counted (NodeMem.initNode v c m) S d := by
  rw [Counted, data_initNode_of_ne hd]
  exact h

/-- **A new node** is a tree more, when there is memory. -/
theorem Trees.newNode (h : Trees m S) (newOk : Bool) (v : NodeInit) : ∃ r m' S', m.newNode newOk v = some (r, m') ∧
    Trees m' S' ∧
    S'.alone = r.toList ++ S.alone := by
  have htake := PoolMem.take_spec h.forest.stored newOk
  unfold NodeMem.newNode PoolMem.new
  generalize m.take newOk = x at htake ⊢
  generalize S.take newOk = y at htake
  cases htake with
  | none => exact ⟨none, m, S, rfl, h, rfl⟩
  | @some o m₁ S₁ hS halone hlists hdata hfirst =>
    have ho : o ∈ S₁.alone := halone ▸ List.mem_cons_self ..
    have hnew : ¬Placed S o := by
      rintro (ha | ⟨i, hi⟩)
      · have hnd := (List.nodup_append.mp hS.loose).1
        rw [halone] at hnd
        exact (List.nodup_cons.mp hnd).1 ha
      · rw [← hlists] at hi
        exact hS.listed i o hi (List.mem_append_left _ ho)
    have hlinked := PoolMem.links_spec hS ho none (some o)
    have hforest : Forest ((m₁.setNext o none).setPrev o (some o)) m.heads S₁ := by
      refine ⟨hlinked, fun d hd => ?_, fun i d hd => ?_⟩
      · show (m₁.data d).childNum < 0
        rw [hdata]
        refine h.forest.closed d fun hplaced => hd ?_
        rcases hplaced with ha | ⟨i, hi⟩
        · exact .inl (halone ▸ List.mem_cons_of_mem _ ha)
        · exact .inr ⟨i, by rwa [hlists]⟩
      · rw [hlists] at hd
        refine under_unlist (fun a ha => halone ▸ List.mem_cons_of_mem _ ha) (fun a b ⟨k, hb⟩ => .inl ⟨k, by rwa [hlists]⟩)
          (h.forest.rooted i d hd)
    have hforest₁ := hforest.of_agrees fun d k => by
      show m.heads (d, k) = if (m₁.data d).childNum < 0 then none else m₁.first (d, k)
      rw [hdata, hfirst, NodeMem.heads]
    have hclosed : (((m₁.setNext o none).setPrev o (some o)).data o).childNum < 0 := by
      show (m₁.data o).childNum < 0
      rw [hdata]
      exact h.forest.closed o hnew
    have hcount : ∀ d, Counted ((m₁.setNext o none).setPrev o (some o)) S₁ d := fun d => by
      show 0 ≤ (m₁.data d).childNum → (m₁.data d).childNum = (S₁.lists (d, .children)).length
      rw [hdata, hlists]
      exact h.counts d
    have htrees : Trees (initNode v o ((m₁.setNext o none).setPrev o (some o))) S₁ := by
      refine ⟨hforest₁.initNode hclosed (.inl ho) v, fun d => ?_⟩
      by_cases hd : d = o
      · subst hd
        exact counted_initNode hforest₁ hclosed v
      · exact (hcount d).initNode hd v
    simp only
    split
    · exact ⟨some o, _, S₁, rfl, htrees, halone⟩
    · obtain ⟨m', S', -, hm', htrees', halone', -, -⟩ := htrees.delete ho (Nat.lt_succ_self _)
      refine ⟨none, m', S', by rw [hm', Option.map_some], htrees', ?_⟩
      rw [halone', halone, List.erase_cons_head]
      rfl

/-- What it is to put a node into a list of another one. -/
structure Puts (n : ℕ) (k : NodeList) (c : ℕ) (m m' : NodeMem) (S S' : NodeStore) : Prop where
  /-- The trees. -/
  forest : Forest m' m'.heads S'
  /-- The list. -/
  list : (S'.lists (n, k)).Perm (c :: S.lists (n, k))
  /-- The other lists. -/
  others : ∀ j, j ≠ (n, k) → S'.lists j = S.lists j
  /-- What is in the nodes. -/
  data : m'.data = m.data

/-- A node is put into a list of a node that is expanded. -/
theorem Puts.of_stored (h : Forest m m.heads S) (hn : 0 ≤ (m.data n).childNum)
    (hS : Stored m' (Function.update m.heads (n, k) (m'.first (n, k))) S') (hlist : PoolMem.OnlyList (n, k) m m')
    (hperm : (S'.lists (n, k)).Perm (c :: S.lists (n, k))) (hother : ∀ j, j ≠ (n, k) → S'.lists j = S.lists j)
    (halone : ∀ a ∈ S.alone, a = c ∨ a ∈ S'.alone) (hrooted : ∀ i, ∀ o ∈ S'.lists i, S'.Under S'.alone o) :
      Puts n k c m m' S S' := by
  refine ⟨Forest.of_agrees ⟨hS, fun o ho => ?_, hrooted⟩ fun d j => ?_, hperm, hother, hlist.data⟩
  · rw [hlist.data]
    refine h.closed o fun hplaced => ho ?_
    rcases hplaced with ha | ⟨i, hi⟩
    · rcases halone o ha with hoc | ha
      · exact .inr ⟨(n, k), hperm.mem_iff.mpr (hoc ▸ List.mem_cons_self ..)⟩
      · exact .inl ha
    · refine .inr ⟨i, ?_⟩
      by_cases hink : i = (n, k)
      · rw [hink] at hi ⊢
        exact hperm.mem_iff.mpr (List.mem_cons_of_mem _ hi)
      · rwa [hother i hink]
  · by_cases hi : (d, j) = (n, k)
    · rw [hi, Function.update_self, heads_of_open (by rwa [hlist.data])]
    · rw [Function.update_of_ne hi, NodeMem.heads, NodeMem.heads, hlist.data, hlist.first _ hi]

theorem Puts.mem (h : Puts n k c m m' S S') : c ∈ S'.lists (n, k) := h.list.mem_iff.mpr (List.mem_cons_self ..)

theorem Puts.counted (h : Puts n k c m m' S S') {d : ℕ} (hd : d ≠ n ∨ k ≠ .children) (hcount : Counted m S d) :
    Counted m' S' d := by
  have hne : (d, NodeList.children) ≠ (n, k) := by
    rintro hdk
    cases hdk
    exact hd.elim (fun hd => hd rfl) fun hk => hk rfl
  rw [Counted, h.data, h.others _ hne]
  exact hcount

/-- What is below a node is below it when its lists grow. -/
theorem under_grow (hkid : ∀ i, ∀ o ∈ S.lists i, o ∈ S'.lists i) {l : List ℕ} (h : S.Under l o) : S'.Under l o :=
  h.mono (fun _ => under_of_mem) fun _ _ ⟨k, hk⟩ => ⟨k, hkid _ _ hk⟩

/-- A new object is put into a list. -/
theorem Puts.of_take {newOk : Bool} {S₁ : NodeStore} {l : List ℕ} (h : Forest m m.heads S) (hn : 0 ≤ (m.data n).childNum)
    (htake : S.take newOk = (some c, S₁)) (hl : l.Perm (c :: S₁.lists (n, k))) (hlist : PoolMem.OnlyList (n, k) m m')
    (hS : Stored m' (Function.update m.heads (n, k) (m'.first (n, k))) (S₁.relist (n, k) l (S₁.alone.erase c))) :
    Puts n k c m m' S (S₁.relist (n, k) l (S₁.alone.erase c)) ∧ (S₁.relist (n, k) l (S₁.alone.erase c)).alone = S.alone ∧
      ¬Placed S c := by
  obtain ⟨hlists, halone⟩ := Store.take_some htake
  rw [hlists] at hl
  have hsame : (S₁.relist (n, k) l (S₁.alone.erase c)).alone = S.alone := by
    rw [Store.alone_relist, halone, List.erase_cons_head]
  have hself : (S₁.relist (n, k) l (S₁.alone.erase c)).lists (n, k) = l := Store.lists_relist_self ..
  have hother : ∀ j, j ≠ (n, k) → (S₁.relist (n, k) l (S₁.alone.erase c)).lists j = S.lists j := fun j hj => by
    rw [Store.lists_relist_of_ne hj, hlists]
  generalize S₁.relist (n, k) l (S₁.alone.erase c) = S' at *
  have hc : c ∈ S'.lists (n, k) := hself ▸ hl.mem_iff.mpr (List.mem_cons_self ..)
  have hgrow : ∀ i, ∀ o ∈ S.lists i, o ∈ S'.lists i := fun i o ho => by
    by_cases hi : i = (n, k)
    · rw [hi] at ho ⊢
      exact hself ▸ hl.mem_iff.mpr (List.mem_cons_of_mem _ ho)
    · rwa [hother i hi]
  have hunder : ∀ o, Placed S o → Under S' S'.alone o := fun o ho => hsame ▸ under_grow hgrow (h.under ho)
  refine ⟨Puts.of_stored h hn hS hlist (hself ▸ hl) hother (fun a ha => .inr (hsame ▸ ha)) fun i o ho => ?_, hsame, ?_⟩
  · by_cases hi : i = (n, k)
    · rw [hi, hself, hl.mem_iff, List.mem_cons] at ho
      rcases ho with rfl | ho
      · exact (hunder n (h.placed_of_open hn)).tail ⟨k, hc⟩
      · exact hunder o (.inr ⟨_, ho⟩)
    · rw [hother i hi] at ho
      exact hunder o (.inr ⟨_, ho⟩)
  · rintro (ha | ⟨i, hi⟩)
    · exact hS.listed _ c hc (List.mem_append_left _ (hsame ▸ ha))
    · by_cases hink : i = (n, k)
      · rw [hink] at hi
        have hnd := (hS.ring (n, k)).nodup
        rw [hself, hl.nodup_iff] at hnd
        exact (List.nodup_cons.mp hnd).1 hi
      · exact hink (hS.apart i (n, k) c (hgrow i c hi) hc)

/-- **`New(first)` and `NewFront(first)`** put a new node into a list of a node that is expanded. -/
theorem newIn_spec (h : Forest m m.heads S) (hn : 0 ≤ (m.data n).childNum) (front newOk : Bool) (k : NodeList) :
    (if front then some (m.newFront newOk (n, k)) else m.newLast newOk (n, k)) = some (none, m) ∨
      ∃ c m' S', (if front then some (m.newFront newOk (n, k)) else m.newLast newOk (n, k)) = some (some c, m') ∧
        Puts n k c m m' S S' ∧ S'.alone = S.alone ∧ ¬Placed S c := by
  cases front with
  | true =>
    rcases PoolMem.newFront_spec (i := (n, k)) h.stored (heads_of_open hn) newOk with ⟨hm, -⟩ |
      ⟨c, m', S₁, hm, htake, -, hS, hlist⟩
    · exact .inl (by rw [if_pos rfl, hm])
    · exact .inr ⟨c, m', _, by rw [if_pos rfl, hm], Puts.of_take h hn htake (List.Perm.refl _) hlist hS⟩
  | false =>
    rcases PoolMem.newLast_spec (i := (n, k)) h.stored (heads_of_open hn) newOk with ⟨hm, -⟩ |
      ⟨c, m', S₁, hm, htake, -, hS, hlist⟩
    · exact .inl (by rw [if_neg Bool.false_ne_true, hm])
    · exact .inr ⟨c, m', _, by rw [if_neg Bool.false_ne_true, hm],
        Puts.of_take h hn htake (List.perm_append_singleton ..) hlist hS⟩

/-- A node that has been put into a list, and is initialized, is counted right; so are the others, but for the one with the
list. -/
theorem Puts.initNode {m₁ : NodeMem} {S₁ : NodeStore} (h : Forest m m.heads S) (hn : 0 ≤ (m.data n).childNum)
    (hput : Puts n k c m m₁ S S₁) (hnew : ¬Placed S c) (v : NodeInit) :
    Forest (NodeMem.initNode v c m₁) (NodeMem.initNode v c m₁).heads S₁ ∧ (NodeMem.initNode v c m₁).data n = m.data n ∧
      ∀ d, d ≠ n ∨ k ≠ .children → Counted m S d → Counted (NodeMem.initNode v c m₁) S₁ d := by
  have hcn : n ≠ c := fun hnc => hnew (hnc ▸ h.placed_of_open hn)
  have hclosed : (m₁.data c).childNum < 0 := by
    rw [hput.data]
    exact h.closed c hnew
  refine ⟨hput.forest.initNode hclosed (.inr ⟨_, hput.mem⟩) v, (data_initNode_of_ne hcn v m₁).trans (congrFun hput.data n),
    fun d hd hcount => ?_⟩
  by_cases hdc : d = c
  · rw [hdc]
    exact counted_initNode hput.forest hclosed v
  · exact (hput.counted hd hcount).initNode hdc v

/-- **`SetMeta` and `AddMeta`** leave trees. -/
theorem Trees.newMeta (h : Trees m S) (hn : 0 ≤ (m.data n).childNum) (front : Bool) (f : NodeField) :
    ∃ m' S', m.newMeta n front f = some m' ∧ Trees m' S' ∧ S'.alone = S.alone := by
  unfold NodeMem.newMeta
  rcases newIn_spec h.forest hn front f.newOk .metas with hm | ⟨c, m₁, S₁, hm, hput, halone, hnew⟩
  · rw [hm]
    exact ⟨m, S, rfl, h, rfl⟩
  · rw [hm]
    obtain ⟨hforest, -, hcount⟩ := hput.initNode h.forest hn hnew f.toNodeInit
    have htrees : Trees (initNode f.toNodeInit c m₁) S₁ := ⟨hforest, fun d => hcount d (.inr (by decide)) (h.counts d)⟩
    simp only [Option.bind_some]
    split
    · exact ⟨_, S₁, rfl, ⟨hforest.setParent c n, fun d => (htrees.counts d).setParent c n⟩, halone⟩
    · obtain ⟨m', S', hm', htrees', halone'⟩ := htrees.removeMeta hput.mem
      exact ⟨m', S', hm', htrees', halone'.trans halone⟩

/-- What holds while a node is expanded; `ok` tells whether all has gone well. -/
structure Expanding (n : ℕ) (alone : List ℕ) (ok : Bool) (m : NodeMem) (S : NodeStore) : Prop where
  /-- The trees. -/
  forest : Forest m m.heads S
  /-- What stands alone. -/
  alone : S.alone = alone
  /-- The node is expanded. -/
  isOpen : 0 ≤ (m.data n).childNum
  /-- The numbers of the other nodes. -/
  counts : ∀ d, d ≠ n → Counted m S d
  /-- That of the node. -/
  count : ok = true → Counted m S n

/-- A turn of the loop of `InnerExpand`. -/
theorem expandField_spec {alone : List ℕ} (h : Expanding n alone true m S) (f : NodeField) :
    ∃ ok m' S', m.expandField n f = some (ok, m') ∧ Expanding n alone ok m' S' := by
  unfold expandField
  rcases newIn_spec h.forest h.isOpen false f.newOk f.list with hm | ⟨c, m₁, S₁, hm, hput, halone, hnew⟩ <;>
    rw [if_neg Bool.false_ne_true] at hm <;> rw [hm]
  · exact ⟨false, m, S, rfl, h.forest, h.alone, h.isOpen, h.counts, nofun⟩
  · obtain ⟨hforest, hself, hcount⟩ := hput.initNode h.forest h.isOpen hnew f.toNodeInit
    have hopen : 0 ≤ ((initNode f.toNodeInit c m₁).data n).childNum := hself ▸ h.isOpen
    have hcounts : ∀ d, d ≠ n → Counted (initNode f.toNodeInit c m₁) S₁ d := fun d hd => hcount d (.inl hd) (h.counts d hd)
    simp only [Option.map_some]
    split
    · have hparent := hforest.setParent c n
      have hnum : (((initNode f.toNodeInit c m₁).setParent c n).data n).childNum = (m.data n).childNum :=
        (childNum_setParent c n n _).trans (congrArg NodeData.childNum hself)
      split
      · next hlist =>
        have hlen := hput.list.length_eq
        rw [hlist, List.length_cons] at hlen
        have hopen' : 0 ≤ (((initNode f.toNodeInit c m₁).setParent c n).data n).childNum := hnum ▸ h.isOpen
        refine ⟨true, _, S₁, rfl, hparent.setChildNum hopen' (Int.add_nonneg hopen' (by decide)), halone.trans h.alone, ?_,
          fun d hd => ((hcounts d hd).setParent c n).setData hd _, fun _ _ => ?_⟩
        · rw [setChildNum, data_setData_self, hnum]
          exact Int.add_nonneg h.isOpen (by decide)
        · rw [setChildNum, data_setData_self, hnum, h.count rfl h.isOpen, hlen]
          rfl
      · next hlist =>
        exact ⟨true, _, S₁, rfl, hparent, halone.trans h.alone, hnum ▸ h.isOpen, fun d hd => (hcounts d hd).setParent c n,
          fun _ => (hcount n (.inr hlist) (h.count rfl)).setParent c n⟩
    · exact ⟨false, _, S₁, rfl, hforest, halone.trans h.alone, hopen, hcounts, nofun⟩

/-- The loop of `InnerExpand`. -/
theorem expandFields_spec {alone : List ℕ} : ∀ {fs : List NodeField} {m : NodeMem} {S : NodeStore},
    Expanding n alone true m S →
    ∃ ok m' S', m.expandFields n fs = some (ok, m') ∧ Expanding n alone ok m' S' := by
  intro fs
  induction fs with
  | nil =>
    intro m S h
    exact ⟨true, m, S, rfl, h⟩
  | cons f fs ih =>
    intro m S h
    obtain ⟨ok, m₁, S₁, hm₁, h₁⟩ := expandField_spec h f
    rw [expandFields, hm₁, Option.bind_some]
    cases ok with
    | true => exact ih h₁
    | false => exact ⟨false, m₁, S₁, rfl, h₁⟩

/-- **`InnerExpand`** leaves trees. -/
theorem Trees.innerExpand (h : Trees m S) (hn : Placed S n) (fs : List NodeField) (eom : Bool) :
    ∃ m' S', m.innerExpand n fs eom = some m' ∧ Trees m' S' ∧ S'.alone = S.alone := by
  unfold NodeMem.innerExpand
  split
  · exact ⟨m, S, rfl, h, rfl⟩
  · next hclosed =>
    have hclosed := Int.not_le.mp hclosed
    have hother : ∀ d, d ≠ n → (m.initChildList n 0).data d = m.data d := fun d hd =>
      data_setData_of_ne hd (fun d => { d with childNum := 0 }) m
    have hzero : ((m.initChildList n 0).data n).childNum = 0 :=
      congrArg NodeData.childNum (data_setData_self n (fun d => { d with childNum := 0 }) m)
    have hbegin : Expanding n S.alone true (m.initChildList n 0) S := by
      refine ⟨h.forest.initChildList hclosed hn 0, rfl, hzero.ge, fun d hd => ?_, fun _ _ => ?_⟩
      · rw [Counted, hother d hd]
        exact h.counts d
      · rw [hzero, lists_of_closed h.forest.stored (fun _ => rfl) hclosed]
        rfl
    obtain ⟨ok, m₁, S₁, hm₁, h₁⟩ := @expandFields_spec _ _ fs _ _ hbegin
    rw [hm₁, Option.bind_some]
    simp only
    split
    · next hok =>
      refine ⟨m₁, S₁, rfl, ⟨h₁.forest, fun d => ?_⟩, h₁.alone⟩
      by_cases hd : d = n
      · exact hd ▸ h₁.count (Bool.and_eq_true_iff.mp hok).1
      · exact h₁.counts d hd
    · obtain ⟨m', S', hm', halone, hdata, htrees⟩ := dropLists_spec h₁.forest h₁.isOpen h₁.counts
        (by decide : NodeList.children ≠ .metas) fun d => { d with childNum := 0 }
      have hall := htrees (fun d => d) (by rw [hdata])
      rw [setData_id] at hall
      exact ⟨m', S', hm', hall, halone.trans h₁.alone⟩

/-! ### Inserting a child -/

/-- `INSERT_CHILD` links a node as `New(first)` and `NewFront(first)` do. -/
theorem linkChild_eq (p c : ℕ) (atTail : Bool) (m : NodeMem) :
    m.linkChild p c atTail = if atTail then m.putLast (p, .children) c else some (m.putFirst (p, .children) c) := by
  unfold linkChild PoolMem.putLast PoolMem.putFirst
  simp only [PoolMem.first_setNext]
  cases m.first (p, NodeList.children) with
  | none => cases atTail <;> rfl
  | some ic =>
    cases atTail with
    | true => rfl
    | false =>
      -- `next` of the node is set twice
      simp only [Bool.false_eq_true, if_false, PoolMem.setNext, PoolMem.setPrev, PoolMem.setFirst, Function.update_idem]

/-- A node that stands alone is put into a list of a node that is not below it. -/
theorem Puts.of_alone {l : List ℕ} (h : Forest m m.heads S) (hn : 0 ≤ (m.data n).childNum) (hc : c ∈ S.alone)
    (hnot : ¬S.Under [c] n) (hl : l.Perm (c :: S.lists (n, k))) (hlist : PoolMem.OnlyList (n, k) m m')
    (hS : Stored m' (Function.update m.heads (n, k) (m'.first (n, k))) (S.relist (n, k) l (S.alone.erase c))) :
    Puts n k c m m' S (S.relist (n, k) l (S.alone.erase c)) := by
  have hself : (S.relist (n, k) l (S.alone.erase c)).lists (n, k) = l := Store.lists_relist_self ..
  have hother : ∀ j, j ≠ (n, k) → (S.relist (n, k) l (S.alone.erase c)).lists j = S.lists j := fun j hj =>
    Store.lists_relist_of_ne hj ..
  have halone : (S.relist (n, k) l (S.alone.erase c)).alone = S.alone.erase c := rfl
  generalize S.relist (n, k) l (S.alone.erase c) = S' at *
  have hgrow : ∀ i, ∀ o ∈ S.lists i, o ∈ S'.lists i := fun i o ho => by
    by_cases hi : i = (n, k)
    · rw [hi] at ho ⊢
      exact hself ▸ hl.mem_iff.mpr (List.mem_cons_of_mem _ ho)
    · rwa [hother i hi]
  -- what is below another root stays there, and the node comes to be so
  have hstay : ∀ o, ¬S.Under [c] o → S.Under S.alone o → Under S' S'.alone o := by
    rintro o hco ⟨r, hr, hpath⟩
    have hrc : r ≠ c := by
      rintro rfl
      exact hco ⟨r, List.mem_singleton_self r, hpath⟩
    exact under_grow hgrow ⟨r, halone ▸ (List.mem_erase_of_ne hrc).mpr hr, hpath⟩
  have hin : Under S' S'.alone c :=
    (hstay n hnot (h.under (h.placed_of_open hn))).tail ⟨k, hself ▸ hl.mem_iff.mpr (List.mem_cons_self ..)⟩
  have hunder : ∀ o, Placed S o → Under S' S'.alone o := fun o ho => by
    by_cases hco : S.Under [c] o
    · obtain ⟨r, hr, hpath⟩ := under_grow hgrow hco
      obtain ⟨a, ha, hca⟩ := hin
      rw [List.mem_singleton.mp hr] at hpath
      exact ⟨a, ha, hca.trans hpath⟩
    · exact hstay o hco (h.under ho)
  refine Puts.of_stored h hn hS hlist (hself ▸ hl) hother (fun a ha => ?_) fun i o ho => ?_
  · by_cases hac : a = c
    · exact .inl hac
    · exact .inr (halone ▸ (List.mem_erase_of_ne hac).mpr ha)
  · by_cases hi : i = (n, k)
    · rw [hi, hself, hl.mem_iff, List.mem_cons] at ho
      rcases ho with rfl | ho
      · exact hin
      · exact hunder o (.inr ⟨_, ho⟩)
    · rw [hother i hi] at ho
      exact hunder o (.inr ⟨_, ho⟩)

/-- **`InsertChild`** of another tree leaves trees, one less of them. -/
theorem Trees.insertChild {p : ℕ} (h : Trees m S) (hp : 0 ≤ (m.data p).childNum) (hc : c ∈ S.alone) (hnot : ¬S.Under [c] p)
    (atTail : Bool) : ∃ m' S', m.insertChild p c atTail = some m' ∧ Trees m' S' ∧ S'.alone = S.alone.erase c := by
  have hparent := h.forest.setParent c p
  have hp₁ : 0 ≤ ((m.setParent c p).data p).childNum := by rwa [childNum_setParent]
  have hlink : ∃ m' S', (m.setParent c p).linkChild p c atTail = some m' ∧ Puts p .children c (m.setParent c p) m' S S' ∧
      S'.alone = S.alone.erase c := by
    rw [linkChild_eq]
    cases atTail with
    | true =>
      obtain ⟨m', hm', hS, hlist⟩ := PoolMem.putLast_spec hparent.stored (heads_of_open hp₁) hc
      exact ⟨m', _, by rw [if_pos rfl, hm'], Puts.of_alone hparent hp₁ hc hnot (List.perm_append_singleton ..) hlist hS, rfl⟩
    | false =>
      obtain ⟨hS, hlist⟩ := PoolMem.putFirst_spec hparent.stored (heads_of_open hp₁) hc
      exact ⟨_, _, by rw [if_neg Bool.false_ne_true], Puts.of_alone hparent hp₁ hc hnot (List.Perm.refl _) hlist hS, rfl⟩
  obtain ⟨m', S', hm', hput, halone⟩ := hlink
  have hnum : (m'.data p).childNum = (m.data p).childNum := by rw [hput.data, childNum_setParent]
  have hopen : 0 ≤ (m'.data p).childNum := hnum ▸ hp
  refine ⟨_, S', by rw [NodeMem.insertChild, hm', Option.map_some],
    ⟨hput.forest.setChildNum hopen (Int.add_nonneg hopen (by decide)), fun d => ?_⟩, halone⟩
  by_cases hd : d = p
  · subst hd
    have hlen := hput.list.length_eq
    rw [Counted, setChildNum, data_setData_self, hnum, h.counts d hp, hlen, List.length_cons]
    exact fun _ => rfl
  · exact (hput.counted (.inl hd) ((h.counts d).setParent c p)).setData hd _

end NodeMem

end KnvProto
