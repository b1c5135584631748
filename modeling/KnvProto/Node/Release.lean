import KnvProto.Memory.PoolLists
import Mathlib.Data.Int.Notation
import Mathlib.Logic.Relation

/-!
# Releasing nodes

`KnvNode::ReleaseObject` and `ReleaseKnvNodeList`: the nodes below a node are put to the free list of their pool,
level by level, by putting their lists one behind the other.

## The model

The nodes are the objects of one pool, `nodepool`. Of what is in a node only the tag, the parent and `child_num` are
modelled, and `metalist` and `childlist`, the two variables that point to lists. `child_num` does not overflow:
a node has fewer than 2^31 children. What `ht`, the keys and the buffers do is modelled elsewhere; they do not lead to
nodes that are released. A loop is given the number of turns that it may take, and has no result when they are not enough.

`releaseObject_spec`: for a node that stands alone `ReleaseObject` ends, and what is below the node, and nothing else,
has come to the free list.
-/

namespace KnvProto

open Memory Linking

/-- The two lists of a node. -/
inductive NodeList where
  /-- `metalist`. -/
  | metas
  /-- `childlist`. -/
  | children
  deriving DecidableEq

/-- What is in a node. -/
structure NodeData where
  /-- `tag`. -/
  tag : UInt32 := 0
  /-- `parent`. -/
  parent : Option ℕ := none
  /-- `child_num`. -/
  childNum : ℤ := -1
  deriving DecidableEq

/-- `nodepool`, and the nodes. The variables are `metalist` and `childlist` of each node. -/
abbrev NodeMem := PoolMem (ℕ × NodeList) NodeData

namespace NodeMem

/-- `metalist` or `childlist`, as far as the node is expanded. -/
def heads (m : NodeMem) (i : ℕ × NodeList) : Option ℕ := if (m.data i.1).childNum < 0 then none else m.first i

/-- What is in a node is changed. -/
def setData (n : ℕ) (f : NodeData → NodeData) (m : NodeMem) : NodeMem :=
  { m with data := Function.update m.data n (f (m.data n)) }

/-- `ReleaseNode`. -/
def releaseNode (n : ℕ) (m : NodeMem) : NodeMem := m.setData n fun d => { d with tag := 0, childNum := -1 }

/-- How `ReleaseKnvNodeList` puts a list before another one. -/
def prepend (list acc : Option ℕ) (m : NodeMem) : Option (Option ℕ × NodeMem) :=
  match list with
  | none => some (acc, m)
  | some n => (m.prev n).map fun last =>
    let m := m.setNext last acc
    match acc with
    -- new last
    | some a => (some n, m.setPrev n (m.prev a))
    | none => (some n, m)

/-- A turn of the inner loop of `ReleaseKnvNodeList`. -/
def visit (c : ℕ) (cclist : Option ℕ) (m : NodeMem) : Option (Option ℕ × NodeMem) :=
  if 0 ≤ (m.data c).childNum then
    (m.prepend (m.first (c, .metas)) cclist).bind fun (cclist, m) =>
      (m.prepend (m.first (c, .children)) cclist).map fun (cclist, m) => (cclist, m.releaseNode c)
  else some (cclist, m.releaseNode c)

/-- The inner loop of `ReleaseKnvNodeList`, over one level. -/
def releaseLevel : ℕ → Option ℕ → Option ℕ → NodeMem → Option (Option ℕ × NodeMem)
  | 0, _, _, _ => none
  | _ + 1, none, cclist, m => some (cclist, m)
  | turns + 1, some c, cclist, m =>
    (m.visit c cclist).bind fun (cclist, m) => releaseLevel turns (m.next c) cclist m

/-- The outer loop of `ReleaseKnvNodeList`, over the levels; `turns` are those of the inner loop. -/
def releaseLevels (turns : ℕ) : ℕ → Option ℕ → Option ℕ → NodeMem → Option (Option ℕ × NodeMem)
  | 0, _, _, _ => none
  | _ + 1, none, fclist, m => some (fclist, m)
  | k + 1, some clist, fclist, m =>
    (releaseLevel turns (some clist) none m).bind fun (cclist, m) =>
      (m.prepend (some clist) fclist).bind fun (fclist, m) => releaseLevels turns k cclist fclist m

/-- `ReleaseKnvNodeList`. -/
def releaseKnvNodeList (turns : ℕ) (i : ℕ × NodeList) (m : NodeMem) : Option NodeMem :=
  (releaseLevels turns turns (m.first i) none m).bind fun (fclist, m) =>
    match fclist with
    | some f => (m.addToFreeList f).map (·.setFirst i none)
    | none => some m

/-- `ReleaseObject`. -/
def releaseObject (turns : ℕ) (n : ℕ) (m : NodeMem) : Option NodeMem :=
  if (m.data n).childNum < 0 then some (m.releaseNode n)
  else
    (if m.first (n, .metas) = none then some m else m.releaseKnvNodeList turns (n, .metas)).bind fun m =>
      (if m.first (n, .children) = none then some m else m.releaseKnvNodeList turns (n, .children)).map (releaseNode n)

/-- `ReleaseObject`, with turns for all nodes. -/
def release (n : ℕ) (m : NodeMem) : Option NodeMem := m.releaseObject (m.fresh + 1) n

/-- `if(list) nodepool->DeleteAll(list);` -/
def deleteList (i : ℕ × NodeList) (m : NodeMem) : Option NodeMem :=
  if m.first i = none then some m else PoolMem.deleteAll release (m.fresh + 1) i m

/-- `KnvNode::Delete`. -/
def delete (turns : ℕ) (tree : ℕ) (m : NodeMem) : Option NodeMem := PoolMem.delete (releaseObject turns) tree m

end NodeMem

/-! ### What is below a node -/

/-- The nodes of a pool. -/
abbrev NodeStore := Store (ℕ × NodeList)

namespace NodeStore

/-- `b` is in a list of `a`. -/
def Kid (S : NodeStore) (a b : ℕ) : Prop := ∃ k, b ∈ S.lists (a, k)

/-- `o` is one of `l`, or somewhere below one. -/
def Under (S : NodeStore) (l : List ℕ) (o : ℕ) : Prop := ∃ a ∈ l, Relation.ReflTransGen S.Kid a o

variable {S S' : NodeStore} {l l' : List ℕ} {a b c o : ℕ}

theorem under_nil : ¬S.Under [] o := fun ⟨_, ha, _⟩ => List.not_mem_nil ha

theorem under_of_mem (h : o ∈ l) : S.Under l o := ⟨o, h, .refl⟩

theorem Under.tail (h : S.Under l a) (hk : S.Kid a b) : S.Under l b := by
  obtain ⟨r, hr, ha⟩ := h
  exact ⟨r, hr, ha.tail hk⟩

theorem Under.mono (h : S.Under l o) (hl : ∀ a ∈ l, S'.Under l' a) (hk : ∀ a b, S.Kid a b → S'.Kid a b) : S'.Under l' o := by
  obtain ⟨a, ha, ho⟩ := h
  obtain ⟨r, hr, hra⟩ := hl a ha
  exact ⟨r, hr, hra.trans (Relation.ReflTransGen.mono hk _ _ ho)⟩

theorem Under.subset (h : S.Under l o) (hl : l ⊆ l') : S.Under l' o :=
    h.mono (fun _ ha => under_of_mem (hl ha)) fun _ _ => id

theorem under_congr (hl : ∀ a, a ∈ l ↔ a ∈ l') : S.Under l o ↔ S.Under l' o :=
  ⟨fun h => h.subset fun a ha => (hl a).mp ha, fun h => h.subset fun a ha => (hl a).mpr ha⟩

theorem under_append : S.Under (l ++ l') o ↔ S.Under l o ∨ S.Under l' o := by
  constructor
  · rintro ⟨a, ha, ho⟩
    exact (List.mem_append.mp ha).imp (fun ha => ⟨a, ha, ho⟩) fun ha => ⟨a, ha, ho⟩
  · rintro (⟨a, ha, ho⟩ | ⟨a, ha, ho⟩)
    · exact ⟨a, List.mem_append_left _ ha, ho⟩
    · exact ⟨a, List.mem_append_right _ ha, ho⟩

/-- The nodes right below one. -/
def below (S : NodeStore) (c : ℕ) : List ℕ := S.lists (c, .children) ++ S.lists (c, .metas)

theorem mem_below : b ∈ S.below c ↔ S.Kid c b := by
  rw [below, List.mem_append]
  constructor
  · rintro (h | h)
    · exact ⟨.children, h⟩
    · exact ⟨.metas, h⟩
  · rintro ⟨k | k, h⟩
    · exact .inr h
    · exact .inl h

/-- The lists of the nodes of `l` are empty, the others are the same. -/
def Emptied (l : List ℕ) (S S' : NodeStore) : Prop := ∀ d k, S'.lists (d, k) = if d ∈ l then [] else S.lists (d, k)

theorem Emptied.kid (h : Emptied l S S') : S'.Kid a b ↔ a ∉ l ∧ S.Kid a b := by
  constructor
  · rintro ⟨k, hk⟩
    rw [h a k] at hk
    split at hk
    · exact absurd hk List.not_mem_nil
    · next ha => exact ⟨ha, k, hk⟩
  · rintro ⟨ha, k, hk⟩
    exact ⟨k, by rwa [h a k, if_neg ha]⟩

theorem Emptied.trans {S'' : NodeStore} (h : Emptied l S S') (h' : Emptied l' S' S'') : Emptied (l' ++ l) S S'' := by
  intro d k
  rw [h' d k, h d k]
  by_cases hd' : d ∈ l' <;> by_cases hd : d ∈ l <;> simp [hd, hd']

/-- What lies below, but not below a node whose lists have been emptied with all that is below it, still does. -/
theorem under_emptied (h : Emptied l' S S') (hclosed : ∀ a ∈ l', ∀ b, S.Kid a b → b ∈ l') (ho : S.Under l o) :
    o ∈ l' ∨ S'.Under l o := by
  obtain ⟨a, ha, hpath⟩ := ho
  induction hpath with
  | refl => exact .inr (under_of_mem ha)
  | @tail b c _ hbc ih =>
    by_cases hb : b ∈ l'
    · exact .inl (hclosed b hb c hbc)
    · rcases ih with hb' | hb'
      · exact absurd hb' hb
      · exact .inr (hb'.tail (h.kid.mpr ⟨hb, hbc⟩))

/-- What is emptied are whole trees: what still lies below did so before. -/
theorem Under.of_emptied (h : Emptied l' S S') (ho : S'.Under l o) : S.Under l o :=
  ho.mono (fun _ ha => under_of_mem ha) fun _ _ hab => (h.kid.mp hab).2

/-- What is in no list is below none but itself. -/
theorem Under.mem_of_root (h : S.Under l o) (hroot : ∀ a, ¬S.Kid a o) : o ∈ l := by
  obtain ⟨a, ha, hpath⟩ := h
  rcases hpath.cases_tail with rfl | ⟨b, -, hb⟩
  · exact ha
  · exact absurd hb (hroot b)

/-- A node, and what is below it. -/
theorem under_cons (h : Emptied [c] S S') : S.Under (c :: l) o ↔ o = c ∨ S'.Under (S.below c ++ l) o := by
  constructor
  · rintro ⟨a, ha, hpath⟩
    induction hpath with
    | refl =>
      rcases List.mem_cons.mp ha with rfl | ha
      · exact .inl rfl
      · exact .inr (under_of_mem (List.mem_append_right _ ha))
    | @tail b d _ hbd ih =>
      rcases ih with rfl | hb
      · exact .inr (under_of_mem (List.mem_append_left _ (mem_below.mpr hbd)))
      · by_cases hbc : b = c
        · exact .inr (under_of_mem (List.mem_append_left _ (mem_below.mpr (hbc ▸ hbd))))
        · exact .inr (hb.tail (h.kid.mpr ⟨fun hmem => hbc (List.mem_singleton.mp hmem), hbd⟩))
  · rintro (rfl | ho)
    · exact under_of_mem (List.mem_cons_self ..)
    · refine ho.mono (fun a ha => ?_) fun a b hab => (h.kid.mp hab).2
      rcases List.mem_append.mp ha with ha | ha
      · exact (under_of_mem (List.mem_cons_self ..)).tail (mem_below.mp ha)
      · exact under_of_mem (List.mem_cons_of_mem _ ha)

/-- The lists of a node are taken away from it. -/
def clear (c : ℕ) (S : NodeStore) : NodeStore :=
  (S.relist (c, .metas) [] (S.lists (c, .metas) ++ S.alone)).relist (c, .children) [] (S.below c ++ S.alone)

theorem emptied_clear (c : ℕ) (S : NodeStore) : Emptied [c] S (S.clear c) := by
  intro d k
  by_cases hd : d = c
  · subst hd
    rw [if_pos (List.mem_singleton_self d)]
    cases k with
    | metas =>
      rw [clear, Store.lists_relist_of_ne (by simp), Store.lists_relist_self]
    | children => rw [clear, Store.lists_relist_self]
  · rw [if_neg (by simpa using hd), clear, Store.lists_relist_of_ne (by simp [hd]), Store.lists_relist_of_ne (by simp [hd])]

end NodeStore

/-! ### The functions -/

namespace NodeMem

open NodeStore

variable {m m' m'' : NodeMem} {heads heads' heads'' : ℕ × NodeList → Option ℕ} {S S' S'' : NodeStore} {l l' G G' : List ℕ}

/-- Only the links of the objects of `l` are changed. -/
structure Relinked (l : List ℕ) (m m' : NodeMem) : Prop where
  /-- The links. -/
  links : ∀ o, o ∉ l → m'.next o = m.next o ∧ m'.prev o = m.prev o
  /-- What is in the nodes. -/
  data : m'.data = m.data
  /-- The variables. -/
  first : m'.first = m.first
  /-- The free list. -/
  free : m'.objFreelist = m.objFreelist
  /-- What has been made. -/
  fresh : m'.fresh = m.fresh

theorem Relinked.trans (h : Relinked l m m') (h' : Relinked l' m' m'') : Relinked (l' ++ l) m m'' where
  links o ho := by
    have hl := h.links o fun hmem => ho (List.mem_append_right _ hmem)
    have hl' := h'.links o fun hmem => ho (List.mem_append_left _ hmem)
    exact ⟨hl'.1.trans hl.1, hl'.2.trans hl.2⟩
  data := h'.data.trans h.data
  first := h'.first.trans h.first
  free := h'.free.trans h.free
  fresh := h'.fresh.trans h.fresh

/-- A list is put before another one. -/
theorem prepend_spec {list acc : Option ℕ} (hl : Tailed m.next m.prev list l) (hacc : Tailed m.next m.prev acc l')
    (hnd : (l ++ l').Nodup) : ∃ head m', m.prepend list acc = some (head, m') ∧ Tailed m'.next m'.prev head (l ++ l') ∧
      Relinked l m m' := by
  cases list with
  | none =>
    obtain rfl := threaded_none_iff.mp hl.forth
    exact ⟨acc, m, rfl, hacc, fun _ _ => ⟨rfl, rfl⟩, rfl, rfl, rfl, rfl⟩
  | some n =>
    obtain ⟨pre, last, rfl, hprev⟩ := hl.ends
    have hn : n ∈ pre ++ [last] := by
      obtain ⟨t, ht, -⟩ := hl.forth.of_some
      exact ht ▸ List.mem_cons_self ..
    have hlast : last ∈ pre ++ [last] := List.mem_append_right _ (List.mem_singleton_self last)
    have hsplit := List.nodup_append.mp hnd
    have hne : ∀ c ∈ pre ++ l', c ≠ last := by
      rintro c hc rfl
      rcases List.mem_append.mp hc with hc | hc
      · exact (List.nodup_append.mp hsplit.1).2.2 c hc c (List.mem_singleton_self c) rfl
      · exact hsplit.2.2 c hlast c hc rfl
    rw [List.append_assoc, List.singleton_append]
    cases acc with
    | none =>
      refine ⟨some n, m.setNext last none, by rw [prepend, hprev, Option.map_some], hl.splice hacc (fun c hc => ?_)
        (Function.update_self ..) hprev, fun o ho => ⟨Function.update_of_ne ?_ .., rfl⟩, rfl, rfl, rfl, rfl⟩
      · exact Function.update_of_ne (hne c hc) ..
      · exact (ne_of_mem_of_not_mem hlast ho).symm
    | some a =>
      refine ⟨some n, (m.setNext last (some a)).setPrev n (m.prev a), by rw [prepend, hprev, Option.map_some]; rfl,
        hl.splice hacc (fun c hc => ?_) (Function.update_self ..) ?_, fun o ho => ⟨?_, ?_⟩, rfl, rfl, rfl, rfl⟩
      · exact Function.update_of_ne (hne c hc) ..
      · rw [if_neg (Option.some_ne_none a), ← hacc.tail a rfl]
        exact Function.update_self ..
      · exact Function.update_of_ne (ne_of_mem_of_not_mem hlast ho).symm ..
      · exact Function.update_of_ne (ne_of_mem_of_not_mem hn ho).symm ..

/-- What has become of the nodes of `G`, which have been released: they have no lists, and are not expanded. The other nodes
are as they were. -/
structure Cleared (G : List ℕ) (m m' : NodeMem) (heads heads' : ℕ × NodeList → Option ℕ) (S S' : NodeStore) : Prop where
  /-- Their lists are empty. -/
  emptied : Emptied G S S'
  /-- Their variables are not looked at. -/
  heads : ∀ d k, heads' (d, k) = if d ∈ G then none else heads (d, k)
  /-- The other nodes. -/
  data : ∀ d, d ∉ G → m'.data d = m.data d
  /-- They are not expanded. -/
  closed : ∀ d ∈ G, (m'.data d).childNum = -1

theorem Cleared.trans (h : Cleared G m m' heads heads' S S') (h' : Cleared G' m' m'' heads' heads'' S' S'') :
    Cleared (G' ++ G) m m'' heads heads'' S S'' where
  emptied := h.emptied.trans h'.emptied
  heads d k := by
    rw [h'.heads d k, h.heads d k]
    by_cases hd' : d ∈ G' <;> by_cases hd : d ∈ G <;> simp [hd, hd']
  data d hd := by
    have hG := h.data d fun hmem => hd (List.mem_append_right _ hmem)
    exact (h'.data d fun hmem => hd (List.mem_append_left _ hmem)).trans hG
  closed d hd := by
    by_cases hd' : d ∈ G'
    · exact h'.closed d hd'
    · rw [h'.data d hd']
      exact h.closed d ((List.mem_append.mp hd).resolve_left hd')

theorem Cleared.nil : Cleared [] m m heads heads S S :=
  ⟨fun _ _ => (if_neg List.not_mem_nil).symm, fun _ _ => (if_neg List.not_mem_nil).symm, fun _ _ => rfl,
    fun _ hd => absurd hd List.not_mem_nil⟩

/-- The variables of a node are what they are taken for. -/
def Agrees (heads : ℕ × NodeList → Option ℕ) (m : NodeMem) (d : ℕ) : Prop := ∀ k, heads (d, k) = m.heads (d, k)

theorem Cleared.agrees (h : Cleared G m m' heads heads' S S') {d : ℕ} (ha : Agrees heads m d)
    (hfirst : d ∉ G → ∀ k, m'.first (d, k) = m.first (d, k)) : Agrees heads' m' d := by
  intro k
  rw [h.heads d k, NodeMem.heads]
  split
  · next hd => rw [if_pos (by rw [h.closed d hd]; decide)]
  · next hd => rw [h.data d hd, hfirst hd k, ha k, NodeMem.heads]

theorem Cleared.of_mem (h : Cleared G m m' heads heads' S S') (hG : ∀ d, d ∈ G' ↔ d ∈ G) :
    Cleared G' m m' heads heads' S S' where
  emptied d k := by simp only [hG]; exact h.emptied d k
  heads d k := by simp only [hG]; exact h.heads d k
  data d hd := h.data d fun hmem => hd ((hG d).mpr hmem)
  closed d hd := h.closed d ((hG d).mp hd)

theorem Cleared.congr (h : Cleared G m m' heads heads' S S') (hdata : m''.data = m'.data) :
    Cleared G m m'' heads heads' S S' where
  emptied := h.emptied
  heads := h.heads
  data d hd := by rw [hdata]; exact h.data d hd
  closed d hd := by rw [hdata]; exact h.closed d hd

theorem Cleared.reloose (h : Cleared G m m' heads heads' S S') (alone free : List ℕ) :
    Cleared G m m' heads heads' S (S'.reloose alone free) := ⟨h.emptied, h.heads, h.data, h.closed⟩

theorem cleared_setFirst_iff {i : ℕ × NodeList} {v : Option ℕ} :
    Cleared G (m.setFirst i v) m' heads heads' S S' ↔ Cleared G m m' heads heads' S S' :=
  ⟨fun h => ⟨h.emptied, h.heads, h.data, h.closed⟩, fun h => ⟨h.emptied, h.heads, h.data, h.closed⟩⟩

/-- The links of the objects of `l`, the variables and the free list are the same. -/
structure Kept (l : List ℕ) (m m' : NodeMem) : Prop where
  /-- The links. -/
  links : ∀ o ∈ l, m'.next o = m.next o ∧ m'.prev o = m.prev o
  /-- The variables. -/
  first : m'.first = m.first
  /-- The free list. -/
  free : m'.objFreelist = m.objFreelist
  /-- What has been made. -/
  fresh : m'.fresh = m.fresh

theorem Kept.trans (h : Kept l m m') (h' : Kept l' m' m'') (hsub : l ⊆ l') : Kept l m m'' where
  links o ho := ⟨(h'.links o (hsub ho)).1.trans (h.links o ho).1, (h'.links o (hsub ho)).2.trans (h.links o ho).2⟩
  first := h'.first.trans h.first
  free := h'.free.trans h.free
  fresh := h'.fresh.trans h.fresh

theorem Kept.mono (h : Kept l' m m') (hsub : l ⊆ l') : Kept l m m' :=
  ⟨fun o ho => h.links o (hsub ho), h.first, h.free, h.fresh⟩

theorem Relinked.kept (h : Relinked l m m') (hl : ∀ o ∈ l', o ∉ l) : Kept l' m m' :=
  ⟨fun o ho => h.links o (hl o ho), h.first, h.free, h.fresh⟩

/-- What a list that is kept is, it stays. -/
theorem Kept.tailed {head : Option ℕ} (h : Kept l m m') (ht : Tailed m.next m.prev head l') (hsub : l' ⊆ l) :
    Tailed m'.next m'.prev head l' :=
  ht.congr (fun o ho => (h.links o (hsub ho)).1) fun o ho => (h.links o (hsub ho)).2

theorem kept_releaseNode (c : ℕ) (m : NodeMem) : Kept l m (m.releaseNode c) := ⟨fun _ _ => ⟨rfl, rfl⟩, rfl, rfl, rfl⟩

theorem childNum_releaseNode (c : ℕ) (m : NodeMem) : ((m.releaseNode c).data c).childNum = -1 := by
  simp only [releaseNode, setData, Function.update_self]

/-- The variables of a node are not looked at any more. -/
def headsWithout (c : ℕ) (heads : ℕ × NodeList → Option ℕ) : ℕ × NodeList → Option ℕ :=
  Function.update (Function.update heads (c, .metas) none) (c, .children) none

theorem headsWithout_eq (c : ℕ) (heads : ℕ × NodeList → Option ℕ) (d : ℕ) (k : NodeList) :
    headsWithout c heads (d, k) = if d = c then none else heads (d, k) := by
  by_cases hd : d = c
  · subst hd
    rw [if_pos rfl, headsWithout]
    cases k with
    | metas => rw [Function.update_of_ne (by simp), Function.update_self]
    | children => rw [Function.update_self]
  · rw [if_neg hd, headsWithout, Function.update_of_ne (by simp [hd]), Function.update_of_ne (by simp [hd])]

/-- The lists of a node, when it stands alone no longer has any. -/
theorem Stored.clear (h : Stored m heads S) (c : ℕ) : Stored m (headsWithout c heads) (S.clear c) := by
  have hlists := (h.unlist (c, .metas)).unlist (c, .children)
  rw [Store.lists_relist_of_ne (by simp), Store.alone_relist, ← List.append_assoc] at hlists
  exact hlists

/-- A node whose lists have been taken away from it is released. -/
theorem cleared_clear (c : ℕ) (hdata : m'.data = m.data) :
    Cleared [c] m (m'.releaseNode c) heads (headsWithout c heads) S (S.clear c) where
  emptied := emptied_clear c S
  heads d k := by simp only [headsWithout_eq, List.mem_singleton]
  data d hd := by
    rw [releaseNode, setData, hdata]
    exact Function.update_of_ne (by simpa using hd) ..
  closed d hd := by
    rw [List.mem_singleton.mp hd]
    exact childNum_releaseNode c m'

theorem Cleared.releaseNode (h : Cleared G m m' heads heads' S S') (c : ℕ) :
    Cleared G (m.releaseNode c) (m'.releaseNode c) heads heads' S S' where
  emptied := h.emptied
  heads := h.heads
  data d hd := by
    by_cases hdc : d = c
    · subst hdc
      simp only [NodeMem.releaseNode, setData, Function.update_self, h.data d hd]
    · simp only [NodeMem.releaseNode, setData, Function.update_of_ne hdc, h.data d hd]
  closed d hd := by
    by_cases hdc : d = c
    · subst hdc
      exact childNum_releaseNode d m'
    · simp only [NodeMem.releaseNode, setData, Function.update_of_ne hdc, h.closed d hd]

/-- A turn of the inner loop puts the lists of a node before those that have been found. -/
theorem visit_spec {c : ℕ} {cclist : Option ℕ} {cc rest : List ℕ} (h : Stored m heads S) (ha : Agrees heads m c)
    (hcc : Tailed m.next m.prev cclist cc) (hperm : S.alone.Perm (cc ++ rest)) :
    ∃ head m' heads', m.visit c cclist = some (head, m') ∧ Stored m' heads' (S.clear c) ∧
      Tailed m'.next m'.prev head (S.below c ++ cc) ∧ Cleared [c] m m' heads heads' S (S.clear c) ∧ Kept S.alone m m' := by
  have hclear := Stored.clear h c
  unfold visit
  split
  · next hopen =>
    have hfirst : ∀ k, heads (c, k) = m.first (c, k) := fun k => by rw [ha k, NodeMem.heads, if_neg (Int.not_lt.mpr hopen)]
    have hnd : (S.lists (c, .children) ++ (S.lists (c, .metas) ++ cc)).Nodup := by
      have hall := (List.nodup_append.mp hclear.loose).1
      have hsame : (S.clear c).alone.Perm (S.lists (c, .children) ++ (S.lists (c, .metas) ++ cc) ++ rest) := by
        show (S.below c ++ S.alone).Perm _
        rw [below, List.append_assoc, List.append_assoc, List.append_assoc]
        exact (hperm.append_left _).append_left _
      exact (List.nodup_append.mp (hsame.nodup_iff.mp hall)).1
    have hmetas := (h.ring (c, .metas)).tailed
    have hchildren := (h.ring (c, .children)).tailed
    rw [hfirst] at hmetas hchildren
    obtain ⟨head, m₁, hm₁, htail, hlink⟩ := prepend_spec hmetas hcc (List.nodup_append.mp hnd).2.1
    have hapart : ∀ o ∈ S.lists (c, .children), o ∉ S.lists (c, .metas) := fun o ho ho' =>
      (List.nodup_append.mp hnd).2.2 o ho o (List.mem_append_left _ ho') rfl
    have hchildren₁ : Tailed m₁.next m₁.prev (m₁.first (c, .children)) (S.lists (c, .children)) := by
      rw [hlink.first]
      exact (hlink.kept hapart).tailed hchildren (List.Subset.refl _)
    obtain ⟨head', m₂, hm₂, htail', hlink'⟩ := prepend_spec hchildren₁ htail hnd
    have hboth := hlink.trans hlink'
    have halone : ∀ o ∈ S.alone, o ∉ S.lists (c, .children) ++ S.lists (c, .metas) := fun o ho hmem => by
      rcases List.mem_append.mp hmem with hmem | hmem
      · exact h.listed _ o hmem (List.mem_append_left _ ho)
      · exact h.listed _ o hmem (List.mem_append_left _ ho)
    refine ⟨head', m₂.releaseNode c, _, by simp only [hm₁, Option.bind_some, hm₂, Option.map_some], ?_, ?_,
      cleared_clear c hboth.data,
      (hboth.kept halone).trans (kept_releaseNode c m₂) (List.Subset.refl _)⟩
    · refine (hclear.relink (fun o ho => hboth.links o fun hmem => ho ?_) hboth.free hboth.fresh).congr rfl rfl rfl rfl
      exact List.mem_append_left _ hmem
    · rw [below, List.append_assoc]
      exact htail'
  · next hopen =>
    have hnone : ∀ k, S.lists (c, k) = [] := fun k => by
      have hring := h.ring (c, k)
      rw [ha k, NodeMem.heads, if_pos (Int.not_le.mp hopen), ring_none_iff] at hring
      exact hring
    refine ⟨cclist, m.releaseNode c, _, rfl, hclear.congr rfl rfl rfl rfl, ?_, cleared_clear c rfl, kept_releaseNode c m⟩
    rw [below, hnone, hnone]
    exact hcc

/-- The inner loop of `ReleaseKnvNodeList` releases the nodes of a level, and finds the next one. -/
theorem releaseLevel_spec : ∀ {L : List ℕ} {turns : ℕ} {c cclist : Option ℕ} {m : NodeMem} {heads : ℕ × NodeList → Option ℕ}
    {S : NodeStore} {cc rest : List ℕ}, Stored m heads S → (∀ d, S.Under (L ++ cc) d → Agrees heads m d) →
    Threaded m.next c L → Tailed m.next m.prev cclist cc → S.alone.Perm (L ++ cc ++ rest) → L.length < turns →
    ∃ head m' heads' S' cc', m.releaseLevel turns c cclist = some (head, m') ∧ Stored m' heads' S' ∧
      Tailed m'.next m'.prev head cc' ∧ Cleared L m m' heads heads' S S' ∧ S'.alone.Perm (L ++ cc' ++ rest) ∧
      S'.free = S.free ∧ Kept (L ++ rest) m m' ∧ ∀ o, S.Under (L ++ cc) o ↔ o ∈ L ∨ Under S' cc' o := by
  intro L
  induction L with
  | nil =>
    intro turns c cclist m heads S cc rest h _ hL hcc hperm hturns
    obtain ⟨turns, rfl⟩ := Nat.exists_eq_add_one_of_ne_zero (Nat.ne_zero_of_lt hturns)
    obtain rfl := threaded_nil_iff.mp hL
    exact ⟨cclist, m, heads, S, cc, rfl, h, hcc, .nil, hperm, rfl, ⟨fun _ _ => ⟨rfl, rfl⟩, rfl, rfl, rfl⟩, by simp⟩
  | cons c L ih =>
    intro turns c' cclist m heads S cc rest h hagree hL hcc hperm hturns
    obtain ⟨turns, rfl⟩ := Nat.exists_eq_add_one_of_ne_zero (Nat.ne_zero_of_lt hturns)
    obtain ⟨rfl, hbehind⟩ := threaded_cons_iff.mp hL
    have hvisit : S.alone.Perm (cc ++ (c :: L ++ rest)) := hperm.trans (by
      rw [List.append_assoc]
      exact List.perm_append_comm_assoc (c :: L) cc rest)
    obtain ⟨head, m₁, heads₁, hm₁, h₁, hcc₁, hclear, hkept⟩ :=
      visit_spec h (hagree c (under_of_mem (List.mem_cons_self ..))) hcc hvisit
    have hunder : ∀ o, S.Under (c :: L ++ cc) o ↔ o = c ∨ (S.clear c).Under (L ++ (S.below c ++ cc)) o := fun o => by
      rw [List.cons_append, under_cons (emptied_clear c S)]
      exact or_congr_right (under_congr fun a => by simp only [List.mem_append]; tauto)
    have hin : ∀ o ∈ c :: L, o ∈ S.alone := fun o ho =>
      hperm.mem_iff.mpr (List.mem_append_left _ (List.mem_append_left _ ho))
    have hnext : Threaded m₁.next (m₁.next c) L := by
      rw [(hkept.links c (hin c (List.mem_cons_self ..))).1]
      exact hbehind.congr fun o ho => (hkept.links o (hin o (List.mem_cons_of_mem _ ho))).1
    have hperm₁ : (S.clear c).alone.Perm (L ++ (S.below c ++ cc) ++ c :: rest) := by
      show (S.below c ++ S.alone).Perm _
      refine (hperm.append_left _).trans (List.perm_iff_count.mpr fun a => ?_)
      simp only [List.count_append, List.count_cons]
      omega
    obtain ⟨head', m', heads', S', cc', hm', h', hcc', hclear', hperm', hfree, hkept', hunder'⟩ :=
      ih h₁ (fun d hd => hclear.agrees (hagree d ((hunder d).mpr (.inr hd))) fun _ k =>
        congrFun hkept.first _) hnext hcc₁ hperm₁
        (Nat.lt_of_succ_lt_succ hturns)
    refine ⟨head', m', heads', S', cc', by simp only [releaseLevel, hm₁, Option.bind_some, hm'], h', hcc',
      (hclear.trans hclear').of_mem fun d => by simp [or_comm], hperm'.trans (List.perm_iff_count.mpr fun a => ?_), hfree,
      (hkept.mono fun o ho => ?_).trans hkept' fun o ho => ?_, fun o => ?_⟩
    · simp only [List.count_append, List.count_cons]
      omega
    · rcases List.mem_append.mp ho with ho | ho
      · exact hin o ho
      · exact hperm.mem_iff.mpr (List.mem_append_right _ ho)
    · simp only [List.cons_append, List.mem_cons, List.mem_append] at ho ⊢
      tauto
    · rw [hunder, hunder', List.mem_cons, or_assoc]

/-- No more objects stand alone than have been made. -/
theorem length_le_of_alone (h : Stored m heads S) (hperm : S.alone.Perm (l ++ l')) : l.length ≤ m.fresh := by
  have hsub : l ⊆ List.range m.fresh := fun o ho => by
    rw [List.mem_range, h.fresh]
    exact (h.known o).mpr (.inr (List.mem_append_left _ (hperm.mem_iff.mpr (List.mem_append_left _ ho))))
  have hnd : (l ++ l').Nodup := hperm.nodup_iff.mp (List.nodup_append.mp h.loose).1
  have hle := List.Nodup.length_le_of_subset (List.nodup_append.mp hnd).1 hsub
  rwa [List.length_range] at hle

/-- The outer loop of `ReleaseKnvNodeList` releases what is below the nodes of a level, with these. -/
theorem releaseLevels_spec {turns : ℕ} {rest : List ℕ} : ∀ {k : ℕ} {clist fclist : Option ℕ} {m : NodeMem}
    {heads : ℕ × NodeList → Option ℕ} {S : NodeStore} {L done : List ℕ}, Stored m heads S →
    (∀ d, S.Under L d → Agrees heads m d) → Tailed m.next m.prev clist L → Tailed m.next m.prev fclist done →
    S.alone.Perm (L ++ done ++ rest) → m.fresh < turns → m.fresh < k + done.length →
    ∃ head m' heads' S' F, m.releaseLevels turns k clist fclist = some (head, m') ∧ Stored m' heads' S' ∧
      Tailed m'.next m'.prev head (F ++ done) ∧ Cleared F m m' heads heads' S S' ∧ S'.alone.Perm (F ++ done ++ rest) ∧
      S'.free = S.free ∧ Kept rest m m' ∧ ∀ o, S.Under L o ↔ o ∈ F := by
  intro k
  induction k with
  | zero =>
    intro clist fclist m heads S L done h _ _ _ hperm _ hk
    have hsplit : S.alone.Perm (done ++ (L ++ rest)) := hperm.trans (by
      rw [List.append_assoc]
      exact List.perm_append_comm_assoc L done rest)
    have hle := length_le_of_alone h hsplit
    omega
  | succ k ih =>
    intro clist fclist m heads S L done h hagree hL hdone hperm hturns hk
    cases clist with
    | none =>
      obtain rfl := threaded_none_iff.mp hL.forth
      exact ⟨fclist, m, heads, S, [], rfl, h, hdone, .nil, hperm, rfl, ⟨fun _ _ => ⟨rfl, rfl⟩, rfl, rfl, rfl⟩,
        fun o => ⟨fun ho => absurd ho under_nil, fun ho => absurd ho List.not_mem_nil⟩⟩
    | some c =>
      have hsplit : S.alone.Perm (L ++ (done ++ rest)) := by rwa [← List.append_assoc]
      have hlen := length_le_of_alone h hsplit
      have hperm' : S.alone.Perm (L ++ [] ++ (done ++ rest)) := by rwa [List.append_nil]
      obtain ⟨cclist, m₁, heads₁, S₁, cc, hm₁, h₁, hcc, hclear, hperm₁, hfree₁, hkept, hunder⟩ :=
        releaseLevel_spec h (by rwa [List.append_nil]) hL.forth .empty hperm' (Nat.lt_of_le_of_lt hlen hturns)
      have hnd : (L ++ (cc ++ (done ++ rest))).Nodup := by
        rw [← List.append_assoc]
        exact hperm₁.nodup_iff.mp (List.nodup_append.mp h₁.loose).1
      have hcut := List.nodup_append.mp hnd
      have hapart : ∀ o, o ∈ cc ∨ o ∈ done ∨ o ∈ rest → o ∉ L := fun o ho ho' =>
        hcut.2.2 o ho' o (by simpa only [List.mem_append] using ho) rfl
      have hLdone : (L ++ done).Nodup := hnd.sublist
        (((List.sublist_append_left done rest).trans (List.sublist_append_right cc _)).append_left L)
      obtain ⟨fclist', m₂, hm₂, hdone₂, hlink⟩ := prepend_spec (hkept.tailed hL (List.subset_append_left ..))
        (hkept.tailed hdone fun o ho => List.mem_append_right _ (List.mem_append_left _ ho)) hLdone
      have h₂ : Stored m₂ heads₁ S₁ := h₁.relink (fun o ho => hlink.links o fun hmem =>
        ho (hperm₁.mem_iff.mpr (by simp [hmem]))) hlink.free hlink.fresh
      have hclear₂ : Cleared L m m₂ heads heads₁ S S₁ := hclear.congr hlink.data
      have hcc₂ := (hlink.kept fun o ho => hapart o (.inl ho)).tailed hcc (List.Subset.refl _)
      have hne : 0 < L.length := by
        obtain ⟨t, rfl, -⟩ := hL.forth.of_some
        exact Nat.succ_pos _
      have hfresh : m₂.fresh = m.fresh := hlink.fresh.trans hkept.fresh
      have hagree₂ : ∀ d, Under S₁ cc d → Agrees heads₁ m₂ d := fun d hd => by
        have hd' := (hunder d).mpr (.inr hd)
        rw [List.append_nil] at hd'
        exact hclear₂.agrees (hagree d hd') fun _ k => congrFun (hlink.first.trans hkept.first) _
      have hperm₂ : S₁.alone.Perm (cc ++ (L ++ done) ++ rest) := hperm₁.trans (List.perm_iff_count.mpr fun a => by
        simp only [List.count_append]
        omega)
      have hk₂ : m₂.fresh < k + (L ++ done).length := by
        rw [hfresh, List.length_append]
        omega
      obtain ⟨head, m', heads', S', F, hm', h', htail, hclear', hperm', hfree', hkept', hunder'⟩ :=
        ih h₂ hagree₂ hcc₂ hdone₂ hperm₂ (hfresh ▸ hturns) hk₂
      refine ⟨head, m', heads', S', F ++ L, ?_, h', ?_, hclear₂.trans hclear',
        hperm'.trans (List.perm_iff_count.mpr fun a => ?_),
        hfree'.trans hfree₁, ?_, fun o => ?_⟩
      · simp only [releaseLevels, hm₁, Option.bind_some, hm₂, hm']
      · rwa [List.append_assoc]
      · simp only [List.count_append]
        omega
      · have hrest := (hkept.mono (l := rest) fun o ho => List.mem_append_right _ (List.mem_append_right _ ho)).trans
          (hlink.kept fun o ho => hapart o (.inr (.inr ho))) (List.Subset.refl _)
        exact hrest.trans hkept' (List.Subset.refl _)
      · rw [← List.append_nil L, hunder, hunder', List.append_nil, List.mem_append, or_comm]

/-- The nodes of `L`, which stood alone, have come to the free list with what is below them; `rest` still stands alone. -/
structure Freed (L rest F : List ℕ) (m m' : NodeMem) (heads heads' : ℕ × NodeList → Option ℕ) (S S' : NodeStore) : Prop where
  /-- The lists. -/
  stored : Stored m' heads' S'
  /-- What stands alone. -/
  alone : S'.alone = rest
  /-- The free list. -/
  free : S'.free = F ++ S.free
  /-- They and what is below them. -/
  under : ∀ o, S.Under L o ↔ o ∈ F
  /-- What has become of them. -/
  cleared : Cleared F m m' heads heads' S S'
  /-- The links of what stands alone. -/
  links : ∀ o ∈ rest, m'.next o = m.next o ∧ m'.prev o = m.prev o
  /-- The variables of the others. -/
  first : ∀ d, d ∉ F → ∀ k, m'.first (d, k) = m.first (d, k)
  /-- What has been made. -/
  fresh : m'.fresh = m.fresh

/-- **`ReleaseKnvNodeList`** ends, and puts the nodes of a list and all that is below them to the free list. -/
theorem releaseKnvNodeList_spec {turns : ℕ} {i : ℕ × NodeList} {L rest : List ℕ} (h : Stored m heads S)
    (hagree : ∀ d, S.Under L d → Agrees heads m d) (hL : Tailed m.next m.prev (m.first i) L)
      (hperm : S.alone.Perm (L ++ rest))
    (hturns : m.fresh < turns) : ∃ m' heads' S' F, m.releaseKnvNodeList turns i = some m' ∧
      Freed L rest F (m.setFirst i none) m' heads heads' S S' := by
  have hperm₀ : S.alone.Perm (L ++ [] ++ rest) := by rwa [List.append_nil]
  obtain ⟨head, m₁, heads₁, S₁, F, hm₁, h₁, htail, hclear, hperm₁, hfree, hkept, hunder⟩ :=
    releaseLevels_spec h hagree hL .empty hperm₀ hturns (by simpa using hturns)
  rw [List.append_nil] at htail hperm₁
  rw [releaseKnvNodeList, hm₁, Option.bind_some]
  cases head with
  | none =>
    obtain rfl := threaded_none_iff.mp htail.forth
    obtain rfl : L = [] := List.eq_nil_iff_forall_not_mem.mpr fun o ho =>
      List.not_mem_nil ((hunder o).mp (under_of_mem ho))
    have hnone : Function.update m.first i none = m.first := by
      rw [← threaded_nil_iff.mp hL.forth, Function.update_eq_self]
    exact ⟨m₁, heads₁, S₁.reloose rest S₁.free, [], rfl, h₁.reloose h₁.free (hperm₁.symm.append_right _)
      (fun _ _ => ⟨rfl, rfl⟩) rfl, rfl, hfree, hunder, cleared_setFirst_iff.mpr (hclear.reloose ..), hkept.links,
      fun _ _ k => congrFun (hkept.first.trans hnone.symm) _, hkept.fresh⟩
  | some f =>
    obtain ⟨m₂, hm₂, h₂, hdata, hfirst, hprev, hnext⟩ := PoolMem.addToFreeList_spec h₁ htail hperm₁
    have hclear₂ : Cleared F m (m₂.setFirst i none) heads heads₁ S S₁ := hclear.congr hdata
    have hnd : (F ++ rest).Nodup := hperm₁.nodup_iff.mp (List.nodup_append.mp h₁.loose).1
    refine ⟨m₂.setFirst i none, heads₁, S₁.reloose rest (F ++ S₁.free), F, by simp only [hm₂, Option.map_some],
      h₂.congr rfl rfl rfl rfl, rfl, by rw [← hfree]; rfl, hunder, cleared_setFirst_iff.mpr (hclear₂.reloose ..),
      fun o ho => ⟨(hnext o fun hF => ?_).trans (hkept.links o ho).1, (congrFun hprev o).trans (hkept.links o ho).2⟩,
      fun d _ k => ?_, (h₂.fresh.trans h₁.fresh.symm).trans hkept.fresh⟩
    · exact (List.nodup_append.mp hnd).2.2 o hF o ho rfl
    · show Function.update m₂.first i none _ = Function.update m.first i none _
      rw [hfirst, hkept.first]

theorem Freed.closed {L rest F : List ℕ} (h : Freed L rest F m m' heads heads' S S') {a b : ℕ} (ha : a ∈ F)
    (hab : S.Kid a b) :
    b ∈ F := (h.under b).mp (((h.under a).mpr ha).tail hab)

theorem Freed.setFirst {L rest F : List ℕ} (h : Freed L rest F m m' heads heads' S S') (i : ℕ × NodeList) (v : Option ℕ) :
    Freed L rest F (m.setFirst i v) (m'.setFirst i v) heads heads' S S' where
  stored := h.stored.congr rfl rfl rfl rfl
  alone := h.alone
  free := h.free
  under := h.under
  cleared := cleared_setFirst_iff.mpr (h.cleared.congr rfl)
  links := h.links
  first d hd k := by
    show Function.update m'.first i v _ = Function.update m.first i v _
    by_cases hdk : (d, k) = i
    · rw [hdk, Function.update_self, Function.update_self]
    · rw [Function.update_of_ne hdk, Function.update_of_ne hdk, h.first d hd k]
  fresh := h.fresh

/-- Some nodes are freed, and then others. -/
theorem Freed.trans {L L' rest F F' : List ℕ} (h : Freed L (L' ++ rest) F m m' heads heads' S S')
    (h' : Freed L' rest F' m' m'' heads' heads'' S' S'') : Freed (L ++ L') rest (F' ++ F) m m'' heads heads'' S S'' where
  stored := h'.stored
  alone := h'.alone
  free := by rw [h'.free, h.free, List.append_assoc]
  under o := by
    rw [under_append, List.mem_append, ← h.under, ← h'.under]
    constructor
    · rintro (ho | ho)
      · exact .inr ho
      · rw [h.under]
        exact (under_emptied h.cleared.emptied (fun a ha b => h.closed ha) ho).symm
    · rintro (ho | ho)
      · exact .inr (ho.of_emptied h.cleared.emptied)
      · exact .inl ho
  cleared := h.cleared.trans h'.cleared
  links o ho := by
    have hlinks := h.links o (List.mem_append_right _ ho)
    exact ⟨(h'.links o ho).1.trans hlinks.1, (h'.links o ho).2.trans hlinks.2⟩
  first d hd k := by
    simp only [List.mem_append, not_or] at hd
    exact (h'.first d hd.1 k).trans (h.first d hd.2 k)
  fresh := h'.fresh.trans h.fresh

/-- A function that frees a list, as long as there are fewer than `turns` nodes. -/
def FreesList (turns : ℕ) (del : ℕ × NodeList → NodeMem → Option NodeMem) : Prop :=
  ∀ {m : NodeMem} {heads : ℕ × NodeList → Option ℕ} {S : NodeStore} {i : ℕ × NodeList} {L rest : List ℕ}, Stored m heads S →
    (∀ d, S.Under L d → Agrees heads m d) → Tailed m.next m.prev (m.first i) L → S.alone.Perm (L ++ rest) → ¬S.Under L i.1 →
    m.fresh < turns → ∃ m' heads' S' F, del i m = some m' ∧ Freed L rest F (m.setFirst i none) m' heads heads' S S'

theorem freesList_releaseKnvNodeList (turns : ℕ) : FreesList turns (releaseKnvNodeList turns) :=
  fun h hagree hL hperm _ hturns => releaseKnvNodeList_spec h hagree hL hperm hturns

/-- Both lists of a node are freed. -/
theorem FreesList.both {turns n : ℕ} {del : ℕ × NodeList → NodeMem → Option NodeMem} (hdel : FreesList turns del)
    {k k' : NodeList}
    (hk : k ≠ k') (h : Stored m heads S) (hagree : ∀ d, S.Under (S.below n) d → Agrees heads m d)
      (hn : ¬S.Under (S.below n) n)
    (hfirst : ∀ k, heads (n, k) = m.first (n, k)) (hturns : m.fresh < turns) :
    ∃ m₁ m' heads' S' F, del (n, k) m = some m₁ ∧ del (n, k') m₁ = some m' ∧
      Freed (S.below n) S.alone F ((m.setFirst (n, k) none).setFirst (n, k') none) m' (headsWithout n heads) heads'
        (S.clear n) S' := by
  have hbelow : ∀ a, a ∈ S.below n ↔ a ∈ S.lists (n, k) ++ S.lists (n, k') := fun a => by
    rw [below, List.mem_append, List.mem_append]
    cases k <;> cases k' <;> first | exact absurd rfl hk | exact Iff.rfl | exact or_comm
  have hperm : (S.clear n).alone.Perm (S.lists (n, k) ++ (S.lists (n, k') ++ S.alone)) := by
    show (S.lists (n, .children) ++ S.lists (n, .metas) ++ S.alone).Perm _
    rw [List.append_assoc]
    cases k <;> cases k' <;>
      first | exact absurd rfl hk | exact List.Perm.refl _ | exact List.perm_append_comm_assoc _ _ _
  have hold : ∀ {l : List ℕ}, (∀ a ∈ l, a ∈ S.below n) → ∀ d, (S.clear n).Under l d → S.Under (S.below n) d := fun hl d hd =>
    (Under.of_emptied (emptied_clear n S) hd).subset hl
  have hother : ∀ {l : List ℕ}, (∀ a ∈ l, a ∈ S.below n) → ∀ d, (S.clear n).Under l d → d ≠ n := by
    rintro l hl d hd rfl
    exact hn (hold hl d hd)
  have hagree₀ : ∀ {l : List ℕ}, (∀ a ∈ l, a ∈ S.below n) → ∀ d, (S.clear n).Under l d → Agrees (headsWithout n heads) m d :=
    fun hl d hd i => by
      rw [headsWithout_eq, if_neg (hother hl d hd)]
      exact hagree d (hold hl d hd) i
  have hl : ∀ a ∈ S.lists (n, k), a ∈ S.below n := fun a ha => mem_below.mpr ⟨k, ha⟩
  have hl' : ∀ a ∈ S.lists (n, k'), a ∈ S.below n := fun a ha => mem_below.mpr ⟨k', ha⟩
  have hset : ∀ {d : ℕ}, d ≠ n → ∀ j, (m.setFirst (n, k) none).first (d, j) = m.first (d, j) := fun hdn _ =>
    Function.update_of_ne (by simp [hdn]) _ _
  -- the first list
  obtain ⟨m₁, heads₁, S₁, F₁, hm₁, h₁⟩ := hdel (Stored.clear h n) (hagree₀ hl) (hfirst k ▸ (h.ring (n, k)).tailed) hperm
    (fun hu => hother hl n hu rfl) hturns
  have hnF₁ : n ∉ F₁ := fun hF => hother hl n ((h₁.under n).mpr hF) rfl
  -- the second one
  have hback : ∀ d, Under S₁ (S.lists (n, k')) d → (S.clear n).Under (S.lists (n, k')) d := fun d hd =>
    hd.of_emptied h₁.cleared.emptied
  have hsame : m₁.first (n, k') = heads (n, k') :=
    ((h₁.first n hnF₁ k').trans (Function.update_of_ne (by simp [hk.symm]) ..)).trans (hfirst k').symm
  have hL₁ : Tailed m₁.next m₁.prev (m₁.first (n, k')) (S.lists (n, k')) := by
    rw [hsame]
    exact (h.ring (n, k')).tailed.congr (fun o ho => (h₁.links o (List.mem_append_left _ ho)).1) fun o ho =>
      (h₁.links o (List.mem_append_left _ ho)).2
  have hagree₁ : ∀ d, Under S₁ (S.lists (n, k')) d → Agrees heads₁ m₁ d := fun d hd =>
    (cleared_setFirst_iff.mp h₁.cleared).agrees (hagree₀ hl' d (hback d hd)) fun hdF j =>
      (h₁.first d hdF j).trans (hset (hother hl' d (hback d hd)) j)
  obtain ⟨m₂, heads₂, S₂, F₂, hm₂, h₂⟩ := hdel h₁.stored hagree₁ hL₁ (by rw [h₁.alone])
    (fun hu => hother hl' n (hback n hu) rfl) (h₁.fresh ▸ hturns)
  have hboth := (h₁.setFirst (n, k') none).trans h₂
  exact ⟨m₁, m₂, heads₂, S₂, F₂ ++ F₁, hm₁, hm₂, hboth.stored, hboth.alone, hboth.free,
    fun o => (under_congr hbelow).trans (hboth.under o), hboth.cleared, hboth.links, hboth.first, hboth.fresh⟩

/-- What stands alone is in no list. -/
theorem not_kid_of_alone (h : Stored m heads S) {n : ℕ} (hn : n ∈ S.alone) (a : ℕ) : ¬S.Kid a n := fun ⟨_, hk⟩ =>
  h.listed _ n hk (List.mem_append_left _ hn)

/-- A list that is not there need not be looked for. -/
theorem releaseKnvNodeList_none {turns : ℕ} {i : ℕ × NodeList} (hturns : 0 < turns) (h : m.first i = none) :
    m.releaseKnvNodeList turns i = some m := by
  obtain ⟨k, rfl⟩ := Nat.exists_eq_add_one_of_ne_zero (Nat.ne_of_gt hturns)
  simp only [releaseKnvNodeList, h, releaseLevels, Option.bind_some]

/-- The nodes of `L`, which stand alone, have been released, and what is below them, `F`, has been put to the free list. -/
structure Released (L F : List ℕ) (m m' : NodeMem) (heads heads' : ℕ × NodeList → Option ℕ) (S S' : NodeStore) : Prop where
  /-- The lists. -/
  stored : Stored m' heads' S'
  /-- They stand alone as before, with the others. -/
  alone : S'.alone = S.alone
  /-- The free list. -/
  free : S'.free = F ++ S.free
  /-- They are below them. -/
  under : ∀ o, S.Under L o ↔ o ∈ L ++ F
  /-- What has become of them. -/
  cleared : Cleared (L ++ F) m m' heads heads' S S'
  /-- The links of what stands alone. -/
  links : ∀ o ∈ S.alone, m'.next o = m.next o ∧ m'.prev o = m.prev o
  /-- The variables of the others. -/
  first : ∀ d, d ∉ L ++ F → ∀ k, m'.first (d, k) = m.first (d, k)
  /-- What has been made. -/
  fresh : m'.fresh = m.fresh

/-- **`ReleaseObject`** ends: for a node that stands alone it puts all that is below it to the free list. -/
theorem releaseObject_spec {turns n : ℕ} (h : Stored m heads S) (hn : n ∈ S.alone)
    (hagree : ∀ d, S.Under [n] d → Agrees heads m d) (hturns : m.fresh < turns) :
    ∃ m' heads' S' F, m.releaseObject turns n = some m' ∧ Released [n] F m m' heads heads' S S' := by
  have hclear := Stored.clear h n
  have hunder : ∀ o, S.Under [n] o ↔ o = n ∨ (S.clear n).Under (S.below n ++ []) o := fun o => under_cons (emptied_clear n S)
  rw [List.append_nil] at hunder
  have hself := hagree n (under_of_mem (List.mem_singleton_self n))
  unfold releaseObject
  split
  · next hclosed =>
    have hnone : ∀ k, S.lists (n, k) = [] := fun k => by
      have hring := h.ring (n, k)
      rwa [hself k, NodeMem.heads, if_pos hclosed, ring_none_iff] at hring
    have hbelow : S.below n = [] := by rw [below, hnone, hnone, List.append_nil]
    refine ⟨m.releaseNode n, _, S.clear n, [], rfl, hclear.congr rfl rfl rfl rfl, ?_, rfl, fun o => ?_, cleared_clear n rfl,
      fun _ _ => ⟨rfl, rfl⟩, fun _ _ _ => rfl, rfl⟩
    · show S.below n ++ S.alone = S.alone
      rw [hbelow, List.nil_append]
    · rw [hunder, hbelow, List.append_nil, List.mem_singleton]
      exact or_iff_left under_nil
  · next hopen =>
    have hbelow : ∀ d, S.Under (S.below n) d → S.Under [n] d := fun d hd => hd.mono (fun a ha =>
      (under_of_mem (List.mem_singleton_self n)).tail (mem_below.mp ha)) fun _ _ => id
    have hnot : ¬S.Under (S.below n) n := fun hu =>
      not_kid_of_alone h hn n (mem_below.mp (hu.mem_of_root (not_kid_of_alone h hn)))
    have hfirst : ∀ k, heads (n, k) = m.first (n, k) := fun k => by rw [hself k, NodeMem.heads, if_neg hopen]
    obtain ⟨m₁, m₂, heads₂, S₂, F, hm₁, hm₂, hboth⟩ := FreesList.both (freesList_releaseKnvNodeList turns)
      (by decide : NodeList.metas ≠ .children) h (fun d hd => hagree d (hbelow d hd)) hnot hfirst hturns
    have hm₁' : (if m.first (n, .metas) = none then some m else m.releaseKnvNodeList turns (n, .metas)) = some m₁ := by
      split
      · next hnone => exact (releaseKnvNodeList_none (Nat.zero_lt_of_lt hturns) hnone).symm.trans hm₁
      · exact hm₁
    have hm₂' : (if m₁.first (n, .children) = none then some m₁ else m₁.releaseKnvNodeList turns (n, .children)) =
      some m₂ := by
      split
      · next hnone => exact (releaseKnvNodeList_none (Nat.zero_lt_of_lt hturns) hnone).symm.trans hm₂
      · exact hm₂
    have hset : ∀ (m : NodeMem) {d : ℕ}, d ≠ n → ∀ k k', (m.setFirst (n, k') none).first (d, k) = m.first (d, k) :=
      fun _ _ hdn _ _ => Function.update_of_ne (by simp [hdn]) _ _
    refine ⟨m₂.releaseNode n, heads₂, S₂, F, by rw [hm₁', Option.bind_some, hm₂', Option.map_some],
      hboth.stored.congr rfl rfl rfl rfl, hboth.alone, hboth.free, fun o => ?_, ?_, hboth.links, fun d hd k => ?_,
        hboth.fresh⟩
    · rw [hunder, List.singleton_append, List.mem_cons, ← hboth.under]
    · have hcleared := cleared_setFirst_iff.mp (cleared_setFirst_iff.mp hboth.cleared)
      exact ((@cleared_clear m m heads S n rfl).trans (hcleared.releaseNode n)).of_mem fun d => by
        simp only [List.mem_append, List.mem_singleton, or_comm]
    · rw [List.singleton_append, List.mem_cons, not_or] at hd
      show m₂.first (d, k) = _
      rw [hboth.first d hd.2, hset _ hd.1, hset _ hd.1]

/-- Some nodes are released, and then others. -/
theorem Released.trans {L L' F F' : List ℕ} (h : Released L F m m' heads heads' S S')
    (h' : Released L' F' m' m'' heads' heads'' S' S'') : Released (L ++ L') (F' ++ F) m m'' heads heads'' S S'' where
  stored := h'.stored
  alone := h'.alone.trans h.alone
  free := by rw [h'.free, h.free, List.append_assoc]
  under o := by
    have hclosed : ∀ a ∈ L ++ F, ∀ b, S.Kid a b → b ∈ L ++ F :=
      fun a ha b hab => (h.under b).mp (((h.under a).mpr ha).tail hab)
    rw [under_append, h.under]
    constructor
    · rintro (ho | ho)
      · simp only [List.mem_append] at ho ⊢
        tauto
      · rcases under_emptied h.cleared.emptied hclosed ho with ho | ho
        · simp only [List.mem_append] at ho ⊢
          tauto
        · have ho' := (h'.under o).mp ho
          simp only [List.mem_append] at ho' ⊢
          tauto
    · intro ho
      by_cases hmem : o ∈ L ++ F
      · exact .inl hmem
      · refine .inr (Under.of_emptied h.cleared.emptied ((h'.under o).mpr ?_))
        simp only [List.mem_append] at ho hmem ⊢
        tauto
  cleared := (h.cleared.trans h'.cleared).of_mem fun d => by simp only [List.mem_append]; tauto
  links o ho := by
    have ho' := h'.links o (h.alone ▸ ho)
    exact ⟨ho'.1.trans (h.links o ho).1, ho'.2.trans (h.links o ho).2⟩
  first d hd k := by
    simp only [List.mem_append, not_or] at hd
    exact (h'.first d (by simp only [List.mem_append]; tauto) k).trans (h.first d (by simp only [List.mem_append]; tauto) k)
  fresh := h'.fresh.trans h.fresh

/-- The loop of `DeleteAll` ends, and releases the nodes of a list. -/
theorem deleteAllLoop_spec : ∀ {L : List ℕ} {turns : ℕ} {head : Option ℕ} {m : NodeMem} {heads : ℕ × NodeList → Option ℕ}
    {S : NodeStore}, Stored m heads S → (∀ o ∈ L, o ∈ S.alone) → (∀ d, S.Under L d → Agrees heads m d) →
    Threaded m.next head L → L.length < turns →
    ∃ m' heads' S' F, PoolMem.deleteAllLoop release turns head m = some m' ∧ Released L F m m' heads heads' S S' := by
  intro L
  induction L with
  | nil =>
    intro turns head m heads S h _ _ hL hturns
    obtain ⟨turns, rfl⟩ := Nat.exists_eq_add_one_of_ne_zero (Nat.ne_zero_of_lt hturns)
    obtain rfl := threaded_nil_iff.mp hL
    exact ⟨m, heads, S, [], rfl, h, rfl, rfl, fun o => ⟨fun ho => absurd ho under_nil, nofun⟩, .nil, fun _ _ => ⟨rfl, rfl⟩,
      fun _ _ _ => rfl, rfl⟩
  | cons c L ih =>
    intro turns head m heads S h hin hagree hL hturns
    obtain ⟨turns, rfl⟩ := Nat.exists_eq_add_one_of_ne_zero (Nat.ne_zero_of_lt hturns)
    obtain ⟨rfl, hbehind⟩ := threaded_cons_iff.mp hL
    obtain ⟨m₁, heads₁, S₁, F₁, hm₁, h₁⟩ := releaseObject_spec h (hin c (List.mem_cons_self ..))
      (fun d hd => hagree d (hd.subset (List.cons_subset_cons c (List.nil_subset L)))) (Nat.lt_succ_self m.fresh)
    have hagree₁ : ∀ d, Under S₁ L d → Agrees heads₁ m₁ d := fun d hd =>
      h₁.cleared.agrees (hagree d ((hd.of_emptied h₁.cleared.emptied).subset (List.subset_cons_self c L))) (h₁.first d)
    have hnext : Threaded m₁.next (m₁.next c) L := by
      rw [(h₁.links c (hin c (List.mem_cons_self ..))).1]
      exact hbehind.congr fun o ho => (h₁.links o (hin o (List.mem_cons_of_mem _ ho))).1
    obtain ⟨m', heads', S', F, hm', h'⟩ := ih h₁.stored (fun o ho => h₁.alone ▸ hin o
      (List.mem_cons_of_mem _ ho)) hagree₁ hnext
      (Nat.lt_of_succ_lt_succ hturns)
    refine ⟨m', heads', S', F ++ F₁, ?_, h₁.trans h'⟩
    rw [PoolMem.deleteAllLoop, release, hm₁, Option.bind_some, hm']

/-- **`DeleteAll`** ends, and puts the nodes of a list and all that is below them to the free list. -/
theorem deleteList_spec {i : ℕ × NodeList} {L rest : List ℕ} (h : Stored m heads S)
    (hagree : ∀ d, S.Under L d → Agrees heads m d) (hL : Tailed m.next m.prev (m.first i) L)
      (hperm : S.alone.Perm (L ++ rest))
    (hi : ¬S.Under L i.1) : ∃ m' heads' S' F, m.deleteList i = some m' ∧
      Freed L rest F (m.setFirst i none) m' heads heads' S S' := by
  unfold deleteList
  split
  · next hnone =>
    rw [hnone] at hL
    obtain rfl := threaded_none_iff.mp hL.forth
    have hsame : Function.update m.first i none = m.first := by rw [← hnone, Function.update_eq_self]
    exact ⟨m, heads, S.reloose rest S.free, [], rfl, h.reloose h.free (hperm.symm.append_right _)
      (fun _ _ => ⟨rfl, rfl⟩) rfl, rfl, rfl,
      fun o => ⟨fun ho => absurd ho under_nil, nofun⟩, cleared_setFirst_iff.mpr (Cleared.nil.reloose ..),
        fun _ _ => ⟨rfl, rfl⟩,
      fun _ _ k => (congrFun hsame _).symm, rfl⟩
  · next hne =>
    obtain ⟨f, hf⟩ := Option.ne_none_iff_exists'.mp hne
    have hin : ∀ o ∈ L, o ∈ S.alone := fun o ho => hperm.mem_iff.mpr (List.mem_append_left _ ho)
    obtain ⟨m₁, heads₁, S₁, F, hm₁, h₁⟩ := deleteAllLoop_spec h hin hagree hL.forth
      (Nat.lt_succ_of_le (length_le_of_alone h hperm))
    have hf₁ : m₁.first i = some f := (h₁.first i.1 (fun hmem => hi ((h₁.under _).mpr hmem)) i.2).trans hf
    have hL₁ : Tailed m₁.next m₁.prev (some f) L := hf ▸ hL.congr (fun o ho => (h₁.links o (hin o ho)).1) fun o ho =>
      (h₁.links o (hin o ho)).2
    obtain ⟨m₂, hm₂, h₂, hdata, hfirst, hprev, hnext⟩ := PoolMem.addToFreeList_spec h₁.stored hL₁ (h₁.alone ▸ hperm)
    have hclear₂ : Cleared (L ++ F) m (m₂.setFirst i none) heads heads₁ S S₁ := h₁.cleared.congr hdata
    have hnd : (L ++ rest).Nodup := hperm.nodup_iff.mp (List.nodup_append.mp h.loose).1
    refine ⟨m₂.setFirst i none, heads₁, S₁.reloose rest (L ++ S₁.free), L ++ F, ?_, h₂.congr rfl rfl rfl rfl, rfl,
      ?_, h₁.under,
      cleared_setFirst_iff.mpr (hclear₂.reloose ..), fun o ho => ?_, fun d hd k => ?_,
      (h₂.fresh.trans h₁.stored.fresh.symm).trans h₁.fresh⟩
    · rw [PoolMem.deleteAll, hm₁, Option.bind_some, hf₁, Option.bind_some, hm₂, Option.map_some]
    · show L ++ S₁.free = _
      rw [h₁.free, List.append_assoc]
    · have hlinks := h₁.links o (hperm.mem_iff.mpr (List.mem_append_right _ ho))
      exact ⟨(hnext o fun hmem => (List.nodup_append.mp hnd).2.2 o hmem o ho rfl).trans hlinks.1,
        (congrFun hprev o).trans hlinks.2⟩
    · show Function.update m₂.first i none _ = Function.update m.first i none _
      rw [hfirst]
      by_cases hdk : (d, k) = i
      · rw [hdk, Function.update_self, Function.update_self]
      · rw [Function.update_of_ne hdk, Function.update_of_ne hdk, h₁.first d hd k]

theorem freesList_deleteList (turns : ℕ) : FreesList turns deleteList := fun h hagree hL hperm hi _ =>
  deleteList_spec h hagree hL hperm hi

/-- **`Delete`** ends, and puts a node that stands alone and all that is below it to the free list. -/
theorem delete_spec {turns r : ℕ} (h : Stored m heads S) (hr : r ∈ S.alone) (hagree : ∀ d, S.Under [r] d → Agrees heads m d)
    (hturns : m.fresh < turns) : ∃ m' heads' S' F, m.delete turns r = some m' ∧
      Freed [r] (S.alone.erase r) (r :: F) m m' heads heads' S S' := by
  obtain ⟨m₁, heads₁, S₁, F, hm₁, h₁⟩ := releaseObject_spec h hr hagree hturns
  have hfreed := PoolMem.recycle_spec h₁.stored (h₁.alone ▸ hr)
  rw [h₁.alone] at hfreed
  have hclear : Cleared ([r] ++ F) m (m₁.recycle r) heads heads₁ S S₁ := h₁.cleared.congr rfl
  have hnd : (S.alone.erase r).Nodup := (List.nodup_append.mp h.loose).1.erase r
  refine ⟨m₁.recycle r, heads₁, S₁.reloose (S.alone.erase r) (r :: S₁.free), F, ?_, hfreed, rfl, ?_, h₁.under,
    hclear.reloose ..,
    fun o ho => ?_, h₁.first, h₁.fresh⟩
  · rw [delete, PoolMem.delete, hm₁, Option.map_some]
  · show r :: S₁.free = _
    rw [h₁.free]
    rfl
  · have hlinks := h₁.links o (List.mem_of_mem_erase ho)
    refine ⟨(Function.update_of_ne ?_ ..).trans hlinks.1, hlinks.2⟩
    rintro rfl
    exact (List.Nodup.not_mem_erase (List.nodup_append.mp h.loose).1) ho

end NodeMem

end KnvProto
