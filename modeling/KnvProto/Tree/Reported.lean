import KnvProto.Node.Deletion
import KnvProto.Tree.Unread

/-!
# What a deletion reports

`DeleteSubTree` gives back, as `match_req_tree`, a part of the request (`Asks`): its
leaves are to be the leaves of the request that have removed something (`Reports`).

A leaf with a key that has found its node is put into the match by the deletion in
that node, and a leaf with a tag alone is copied into it, whether there is a child
with that tag or not. A node is also removed when it has no children left, which
includes one that had none before, and that a leaf with the bytes of its key but with
another type of key has found. `reports_iff` says what is left of the property:
every leaf that goes by its tag, or that finds a node without children, must meet
what it asks for in one of the nodes that it is put to.
-/

namespace KnvProto

namespace KnvNode

/-! ### Requests that have been read -/

/-- An empty key is no key. -/
theorem key_of_bytes_init {t : PbType} {v : PbVal} (h : (KnvKey.init t (some v)).bytes = []) :
    KnvKey.init t (some v) = {} := by
  cases t with
  | string => exact congrArg (KnvKey.mk .string) h
  | varint => exact absurd h (KnvKey.bytes_init_ne_nil .varint v nofun)
  | fixed64 => exact absurd h (KnvKey.bytes_init_ne_nil .fixed64 v nofun)
  | fixed32 => exact absurd h (KnvKey.bytes_init_ne_nil .fixed32 v nofun)

variable {s : KnvNode}

/-- The key of a node that has been read is none, or one of a value. -/
theorem Made.key_eq (h : Made s) : s.key = {} ∨ ∃ t v, s.key = KnvKey.init t (some v) := by
  obtain ⟨f, sz, a, rfl⟩ := h
  have hof : ∀ bs : Bytes, KnvKey.ofBytes bs = {} ∨ ∃ t v, KnvKey.ofBytes bs = KnvKey.init t (some v) := by
    intro bs
    rw [KnvKey.ofBytes]
    split
    · split
      · exact .inr ⟨_, _, rfl⟩
      · exact .inl rfl
    · exact .inl rfl
  have hkey : ((ofField (f, sz) false).at' a).key = _ := key_initNode f.tag f.type (some f.val) sz false
  rw [hkey]
  split
  · exact hof _
  · exact .inl rfl

/-- The key of a node that has been read is the key of its own value. -/
theorem Made.canonical (h : Made s) : KnvKey.init s.key.type (some s.key.getValue) = s.key := by
  rcases h.key_eq with hk | ⟨t, v, hk⟩
  · rw [hk]
    rfl
  · rw [hk, KnvKey.type_init, KnvKey.init_getValue_init]

theorem Made.key_of_nil (h : Made s) (hnil : s.key.bytes = []) : s.key = {} := by
  rcases h.key_eq with hk | ⟨t, v, hk⟩
  · exact hk
  · rw [hk] at hnil ⊢
    exact key_of_bytes_init hnil

theorem Made.shape (h : Made s) : Shape s := by
  obtain ⟨f, sz, a, rfl⟩ := h
  exact shape_at'.mpr (shape_initNode ..)

theorem Made.childlist (h : Made s) : s.childlist = [] := by
  obtain ⟨f, sz, a, rfl⟩ := h
  rfl

/-- A copy has the value of the node, or what the node is written as. -/
theorem innerDuplicate_ok {n d : KnvNode} (hev : 0 ≤ n.evalSz) (hd : n.innerDuplicate false = .ok d) :
    ∃ v : PbVal, d = initNode n.tag n.type (some v) true n.evalSz.toNat false ∧
      (v = n.val ∨ n.val.str = [] ∧ n.serialize (Memory.allocSize n.evalSz.toNat) false = .ok v.str) := by
  by_cases he : Emptied n
  · rw [innerDuplicate_emptied hev he] at hd
    cases hser : n.serialize (Memory.allocSize n.evalSz.toNat) false with
    | error e =>
      rw [hser] at hd
      cases hd
    | ok out =>
      rw [hser] at hd
      simp only at hd
      split at hd
      · cases hd
      · cases hd
        exact ⟨{ str := out }, rfl, .inr ⟨he.2.1, rfl⟩⟩
  · rw [Emptied] at he
    rw [innerDuplicate, if_neg he] at hd
    cases hd
    exact ⟨n.val, rfl, .inl rfl⟩

/-- A copy of a node that has been read, and looked into: with the same tag and key, and nothing below it. -/
theorem Made.copy (h : Made s) {pk : Bool} {d : KnvNode} (hd : (s.innerExpand pk false).innerDuplicate false = .ok d) :
    d.step = s.step ∧ d.childlist = [] ∧ 0 ≤ d.evalSz := by
  have hsame := expandSame pk false s
  obtain ⟨v, rfl, hv⟩ := innerDuplicate_ok (hsame.evalSz ▸ h.shape.evaluated) hd
  -- a value that has been lost was empty from the beginning
  have hval : v = s.val ∨ s.val.str = [] ∧ v.str = [] := by
    rcases hv with hv | ⟨hnil, hser⟩
    · exact .inl (hv.trans hsame.val)
    · rw [hsame.val] at hnil
      refine .inr ⟨hnil, ?_⟩
      have hexp : s.expanded = true ∧ s.metalist = [] := by
        obtain ⟨f, sz, a, rfl⟩ := h
        have hnil' : (f.val.pick f.type).str = [] := hnil
        by_cases ht : f.type = .string
        · rw [ht, PbVal.pick_string] at hnil'
          simp [ofField, initNode, KnvNode.at', ht, hnil']
        · simp [ofField, initNode, KnvNode.at', ht]
      rw [innerExpand_of_expanded hexp.1] at hser
      have hfolded : (s.isFolded || s.isClean) = true := by
        simp [isFolded, hexp.2, h.childlist]
      rw [((serialize_valueOnly_iff (valid_of_serialize hser) hfolded).mp hser).2.2, hnil]
  have hkey : (initNode s.tag s.type (some v) true s.evalSz.toNat false).key = s.key := by
    obtain ⟨f, sz, a, rfl⟩ := h
    have hmine : ((ofField (f, sz) false).at' a).key = _ := key_initNode f.tag f.type (some f.val) sz false
    rw [key_initNode, hmine]
    by_cases ht : f.type = .string
    · have hread : ((ofField (f, sz) false).at' a).val.str = f.val.str := by
        show (f.val.pick f.type).str = f.val.str
        rw [ht, PbVal.pick_string]
      have hstr : v.str = f.val.str := by
        rcases hval with rfl | ⟨hnil, hv⟩
        · exact hread
        · rw [hv, ← hread, hnil]
      have hsame : (v.pick f.type).str = (f.val.pick f.type).str := by
        rw [ht, PbVal.pick_string, PbVal.pick_string]
        exact hstr
      show (if f.type = .string ∧ (v.pick f.type).str ≠ [] ∧ false = false
        then KnvKey.ofBytes (v.pick f.type).str else {}) = _
      rw [hsame]
      rfl
    · rw [if_neg fun h => ht h.1, if_neg fun h => ht h.1]
  refine ⟨Prod.ext hsame.tag ?_, rfl, (shape_initNode ..).evaluated⟩
  rw [step, hsame.tag, hsame.type, hsame.evalSz]
  exact hkey

/-! ### Ways down a tree -/

/-- A way leads from a node down to a node. -/
inductive WayTo : KnvNode → List Step → KnvNode → Prop
  /-- To the node itself. -/
  | here (n : KnvNode) : WayTo n [] n
  /-- To a child, and on. -/
  | child {n c x : KnvNode} {π : List Step} : c ∈ n.childlist → WayTo c π x → WayTo n (c.step :: π) x

/-- A way leads down a request under a parent that has a key or not: the nodes on it are expanded. -/
inductive Asks : Bool → KnvNode → List Step → KnvNode → Prop
  /-- To the request itself. -/
  | here (reqKeyed : Bool) (r : KnvNode) : Asks reqKeyed r [] (r.innerExpand reqKeyed false)
  /-- To a child, and on. -/
  | child {reqKeyed : Bool} {r c q : KnvNode} {π : List Step} : c ∈ (r.innerExpand reqKeyed false).childlist →
      Asks (r.key.bytes != []) c π q → Asks reqKeyed r (c.step :: π) q

/-- A way leads to a leaf of a request that has been given back. -/
def Appears (matched : Option KnvNode) (π : List Step) : Prop :=
  ∃ m, matched = some m ∧ ∃ x, WayTo m π x ∧ x.childlist = []

/-- The nodes below a request that has been given back. -/
def nodesBelow : Option KnvNode → List KnvNode
  | some m => m.childlist
  | none => []

variable {matched : Option KnvNode} {m c x : KnvNode} {π : List Step} {a : ℕ}

theorem wayTo_nil_iff : WayTo m [] x ↔ x = m := by
  constructor
  · rintro ⟨⟩
    rfl
  · rintro rfl
    exact .here x

theorem wayTo_cons_iff {p : Step} : WayTo m (p :: π) x ↔ ∃ c ∈ m.childlist, c.step = p ∧ WayTo c π x := by
  constructor
  · rintro (_ | ⟨hc, h⟩)
    exact ⟨_, hc, rfl, h⟩
  · rintro ⟨c, hc, rfl, h⟩
    exact .child hc h

theorem appears_nil_iff : Appears (some m) [] ↔ m.childlist = [] := by
  constructor
  · rintro ⟨_, ⟨⟩, x, hx, hleaf⟩
    exact wayTo_nil_iff.mp hx ▸ hleaf
  · intro h
    exact ⟨m, rfl, m, .here m, h⟩

theorem appears_cons_iff {p : Step} :
    Appears matched (p :: π) ↔ ∃ c ∈ nodesBelow matched, c.step = p ∧ Appears (some c) π := by
  constructor
  · rintro ⟨m, rfl, x, hx, hleaf⟩
    obtain ⟨c, hc, hstep, hx⟩ := wayTo_cons_iff.mp hx
    exact ⟨c, hc, hstep, c, rfl, x, hx, hleaf⟩
  · rintro ⟨c, hc, hstep, _, ⟨⟩, x, hx, hleaf⟩
    cases matched with
    | none => exact absurd hc List.not_mem_nil
    | some m => exact ⟨m, rfl, x, wayTo_cons_iff.mpr ⟨c, hc, hstep, hx⟩, hleaf⟩

/-- Where a node hangs has nothing to do with the ways down from it. -/
theorem appears_at' : Appears (some (c.at' a)) π ↔ Appears (some c) π := by
  cases π with
  | nil => rw [appears_nil_iff, appears_nil_iff]; rfl
  | cons p π => rw [appears_cons_iff, appears_cons_iff]; rfl

/-! ### Requests that are given back -/

/-- A part of a request: its root, and nodes on ways down the request. -/
structure PartOf (reqKeyed : Bool) (req m : KnvNode) : Prop where
  root : m.step = req.step
  /-- Its size has been evaluated. -/
  evaluated : 0 ≤ m.evalSz
  ways : ∀ c ∈ m.childlist, ∀ π x, WayTo c π x → ∃ q, Asks reqKeyed req (c.step :: π) q

/-- The root of a request that is given back for the nodes below it. -/
structure Rooting (req m : KnvNode) (cs : List KnvNode) : Prop where
  step : m.step = req.step
  evaluated : 0 ≤ m.evalSz
  childlist : m.childlist = cs

theorem rooting_matchTree {req : KnvNode} (hkey : KnvKey.init req.key.type (some req.key.getValue) = req.key)
    (hpart : ∀ m, matched = some m → m.step = req.step ∧ 0 ≤ m.evalSz) (h : matchTree req matched = .ok m) :
    Rooting req m (nodesBelow matched) := by
  cases matched with
  | some m₀ =>
    cases h
    exact ⟨(hpart m rfl).1, (hpart m rfl).2, rfl⟩
  | none =>
    have htag : req.tag ≠ 0 := (newTree_cases (show newTree req.tag (some req.key) = .ok m from h)).1
    obtain ⟨t, ht, hask, -, hnil⟩ := asking_newTree htag hkey
    rw [matchTree, ht] at h
    cases h
    exact ⟨Prod.ext hask.tag hask.key, hask.evalSz, hnil⟩

/-- What is given back for a request that has been read, and looked into. -/
theorem rooting_made {reqKeyed pk : Bool} {req : KnvNode} (hmade : Made req)
    (hpart : ∀ m, matched = some m → PartOf reqKeyed req m)
    (h : matchTree (req.innerExpand pk false) matched = .ok m) : Rooting req m (nodesBelow matched) := by
  have hsame := expandSame pk false req
  have hstep : (req.innerExpand pk false).step = req.step := Prod.ext hsame.tag hsame.key
  have hroot := rooting_matchTree (by rw [hsame.key]; exact hmade.canonical)
    (fun m hm => ⟨(hpart m hm).root.trans hstep.symm, (hpart m hm).evaluated⟩) h
  exact ⟨hroot.step.trans hstep, hroot.evaluated, hroot.childlist⟩

/-- Another node goes below. -/
theorem Rooting.insert {req : KnvNode} {cs : List KnvNode} (h : Rooting req m cs) (hc : 0 ≤ c.evalSz) :
    Rooting req (innerInsertChild c true true true m).node (cs ++ [c.at' m.slots]) := by
  have happ := appended_innerInsertChild hc true m
  exact ⟨(Prod.ext happ.tag happ.key : _ = m.step).trans h.step,
    happ.evalSz h.evaluated, by rw [happ.childlist, h.childlist]⟩

/-! ### The children that go -/

/-- A node that has lost children: it is where it was, and looks to its parent as before. -/
structure Remains (n n' : KnvNode) : Prop where
  shaped : Shaped n'
  face : face n' = face n

theorem Remains.trans {n n' n'' : KnvNode} (h : Remains n n') (h' : Remains n' n'') : Remains n n'' :=
  ⟨h'.shaped, h'.face.trans h.face⟩

theorem Touched.remains {n n' n'' : KnvNode} (ht : Touched n' n'') (h : Remains n n') : Remains n n'' :=
  ⟨h.shaped.touched ht, (Prod.ext ht.self (Prod.ext ht.tag ht.key) : KnvNode.face n'' = KnvNode.face n').trans h.face⟩

theorem remains_innerExpand {n : KnvNode} (h : Shaped n) (pk k : Bool) : Remains n (n.innerExpand pk k) :=
  ⟨h.innerExpand pk k, Prod.ext (expandSame pk k n).self (Prod.ext (expandSame pk k n).tag (expandSame pk k n).key)⟩

theorem remains_getChildNum {n : KnvNode} (h : Shaped n) (pk : Bool) : Remains n (n.getChildNum pk).1 := by
  unfold getChildNum
  simp only
  split
  · exact remains_innerExpand h pk false
  · exact ⟨h, rfl⟩

theorem Remains.setChildNode {n x y : KnvNode} (h : Shaped n) (hx : x ∈ n.childlist) (hy : Remains x y) :
    Remains n (n.setChildNode y) ∧ (n.setChildNode y).childAddrs = n.childAddrs ∧ y ∈ (n.setChildNode y).childlist := by
  have hre := rehung_setChildNode h.here hx hy.face
  refine ⟨⟨h.setChildNode hy.shaped hx hy.face, rfl⟩, ?_, ?_⟩
  · have haddrs : ∀ z : KnvNode, z.childAddrs = (z.childlist.map KnvNode.face).map (·.1) := fun z => by
      rw [childAddrs, List.map_map]
      rfl
    rw [haddrs, haddrs, hre.childlist]
  · have hself : x.self = y.self := (congrArg Prod.fst hy.face).symm
    exact List.mem_map.mpr ⟨x, hx, if_pos hself⟩

theorem remains_removeChildByPos {n c : KnvNode} (h : Shaped n) (hc : c ∈ n.childlist) (pos : Option ℕ) :
    Remains n (n.removeChildByPos c.self pos).node ∧ (n.removeChildByPos c.self pos).node.expanded = n.expanded ∧
      (n.removeChildByPos c.self pos).node.childAddrs = n.childAddrs.erase c.self := by
  have hkeep := keepsShape_removeChildByPos h c.self pos
  unfold KnvNode.removeChildByPos at hkeep ⊢
  rw [find?_self h.here.nodup_children hc] at hkeep ⊢
  have ht := touched_finish
  simp only at hkeep ⊢
  refine ⟨⟨hkeep.1, Prod.ext (ht ..).self (Prod.ext (ht ..).tag (ht ..).key)⟩, (ht ..).expanded, ?_⟩
  rw [childAddrs, (ht ..).childlist]
  exact childAddrs_erase n c.self

/-- What becomes of a child in which a deletion has returned. -/
theorem remains_settle {n c : KnvNode} (h : Shaped n) (hc : c ∈ n.childlist) (pos : Option ℕ) (ret : ℕ) :
    Remains n (settle pos ret c n).node ∧ (settle pos ret c n).node.expanded = n.expanded ∧
      (settle pos ret c n).node.childAddrs =
        if ret = 1 ∨ (c.getChildNum (n.key.bytes != [])).2 = 0 then n.childAddrs.erase c.self else n.childAddrs := by
  unfold settle
  by_cases hret : ret = 1
  · rw [if_pos hret, if_pos (Or.inl hret)]
    exact remains_removeChildByPos h hc pos
  · have hchild := remains_getChildNum (h.children c hc) (n.key.bytes != [])
    obtain ⟨hset, haddrs, hmem⟩ := Remains.setChildNode h hc hchild
    have hself : (c.getChildNum (n.key.bytes != [])).1.self = c.self := congrArg Prod.fst hchild.face
    rw [if_neg hret]
    simp only [hret, false_or]
    split
    · obtain ⟨hrem, hexp, herase⟩ := remains_removeChildByPos hset.shaped hmem pos
      exact ⟨hset.trans hrem, hexp, by rw [herase, haddrs, hself]⟩
    · exact ⟨hset, rfl, haddrs⟩

/-- `RemoveChildrenByTag`, of an expanded node. -/
theorem remains_removeChildrenByTag {n : KnvNode} (h : Shaped n) (hv : n.isValid = true) (hexp : n.expanded = true)
    (t : UInt32) (pl : Place) : Remains n (n.removeChildrenByTag t pl).node ∧
    (n.removeChildrenByTag t pl).node.expanded = true ∧
      (n.removeChildrenByTag t pl).node.childlist = n.childlist.filter fun c => c.tag ≠ t := by
  have hkeep := (keepsShape_removeChildrenByTag h t pl).1
  revert hkeep
  unfold KnvNode.removeChildrenByTag
  rw [if_neg (by simp [hv]), innerExpand_of_expanded hexp]
  simp only
  split
  · next hnil =>
    refine fun _ => ⟨⟨h, rfl⟩, hexp, (List.filter_eq_self.mpr fun c hc => ?_).symm⟩
    have hnone := List.filter_eq_nil_iff.mp (List.isEmpty_iff.mp hnil) c hc
    simpa using hnone
  · intro hkeep
    have ht := touched_finish
    exact ⟨⟨hkeep, Prod.ext (ht ..).self (Prod.ext (ht ..).tag (ht ..).key)⟩, (ht ..).expanded.trans hexp, (ht ..).childlist⟩

end KnvNode

open KnvNode

/-! ### Turns -/

namespace Turn

/-- The leaf is put into `match_req_tree`: one without a key always. -/
def Tells (t : Turn) : Prop := t.key.bytes = [] ∨ t.meets = true

/-- What the turn removes can be told from the node before. -/
def Sound (t : Turn) : Prop := t.removed ≠ [] ↔ t.meets = true ∨ t.key.bytes ≠ [] ∧ t.bare = true

theorem path_under (s : Step) (t : Turn) : (t.under s).path = s :: t.path := rfl

theorem path_ne_nil (t : Turn) : t.path ≠ [] := by simp [path]

/-- A turn after which the children are the same, but for one that may have been removed. -/
theorem removed_erase {t : Turn} {a : ℕ} {p : Prop} [Decidable p] (hnd : t.before.childAddrs.Nodup)
    (ha : a ∈ t.before.childAddrs)
    (hafter : t.after.childAddrs = if p then t.before.childAddrs.erase a else t.before.childAddrs) : t.removed ≠ [] ↔ p := by
  have hremoved : t.removed = t.before.childAddrs.filter fun a => a ∉ t.after.childAddrs := rfl
  rw [hremoved, hafter]
  by_cases hp : p
  · rw [if_pos hp]
    exact iff_of_true (List.ne_nil_of_mem (List.mem_filter.mpr ⟨ha, decide_eq_true hnd.not_mem_erase⟩)) hp
  · rw [if_neg hp]
    exact iff_of_false (not_not_intro (List.filter_eq_nil_iff.mpr fun x hx => by simp [hx])) hp

/-- A turn of a leaf without a key. -/
theorem sound_byTag {t : Turn} (hkey : t.key.bytes = []) (hnd : t.before.childAddrs.Nodup)
    (hafter : t.after.childlist = t.before.childlist.filter fun c => c.tag ≠ t.tag) : t.Sound := by
  have hmeets : t.meets = true ↔ ∃ c ∈ t.before.childlist, c.tag = t.tag := by
    rw [meets, if_pos hkey, List.any_eq_true]
    simp only [decide_eq_true_eq]
  have hremoved : ∀ a, a ∈ t.removed ↔ ∃ c ∈ t.before.childlist, c.tag = t.tag ∧ c.self = a := by
    intro a
    rw [removed, List.mem_filter, decide_eq_true_eq, hafter]
    constructor
    · rintro ⟨hmem, hgone⟩
      obtain ⟨c, hc, rfl⟩ := List.mem_map.mp hmem
      refine ⟨c, hc, ?_, rfl⟩
      by_contra htag
      exact hgone (List.mem_map.mpr ⟨c, List.mem_filter.mpr ⟨hc, decide_eq_true htag⟩, rfl⟩)
    · rintro ⟨c, hc, htag, rfl⟩
      refine ⟨List.mem_map.mpr ⟨c, hc, rfl⟩, fun hmem => ?_⟩
      obtain ⟨x, hx, hself⟩ := List.mem_map.mp hmem
      obtain ⟨hx, hother⟩ := List.mem_filter.mp hx
      have hsame := List.inj_on_of_nodup_map (f := fun x : KnvNode => x.self) hnd hx hc hself
      exact of_decide_eq_true hother (hsame ▸ htag)
  rw [Sound, hmeets]
  constructor
  · intro hne
    obtain ⟨a, ha⟩ := List.exists_mem_of_ne_nil _ hne
    obtain ⟨c, hc, htag, -⟩ := (hremoved a).mp ha
    exact .inl ⟨c, hc, htag⟩
  · rintro (⟨c, hc, htag⟩ | ⟨hne, -⟩)
    · exact List.ne_nil_of_mem ((hremoved c.self).mpr ⟨c, hc, htag, rfl⟩)
    · exact absurd hkey hne

end Turn

namespace KnvNode

/-- **What a deletion has reported**: a part of the request, of which the leaves are the leaves that tell. -/
structure Tally (reqKeyed : Bool) (req : KnvNode) (d : Deletion) : Prop where
  part : ∀ m, d.matched = some m → PartOf reqKeyed req m
  asked : ∀ t ∈ d.turns, ∃ q, Asks reqKeyed req t.path q ∧ q.childlist = []
  sound : ∀ t ∈ d.turns, t.Sound
  told : ∀ p π, Appears d.matched (p :: π) ↔ ∃ t ∈ d.turns, t.path = p :: π ∧ t.Tells

/-- What a deletion that did not fail leaves. -/
structure Deleted (reqKeyed : Bool) (req n : KnvNode) (d : Deletion) : Prop where
  tally : Tally reqKeyed req d
  kept : Remains n d.node
  /-- Something that is given back is a leaf if the request is one. -/
  leaf : ∀ m, d.matched = some m → (m.childlist = [] ↔ req.asksWhole reqKeyed = true)
  /-- A leaf with a key is given back if the node has the key. -/
  whole : req.asksWhole reqKeyed = true → req.key.bytes ≠ [] → n.tag = req.tag →
    (d.matched.isSome ↔ n.key = req.key) ∧ d.ret = .ok (if n.key = req.key then 1 else 0) ∧ d.node = n

/-- What holds between two turns of the loop over the children of a request. -/
structure Underway (reqKeyed : Bool) (req n : KnvNode) (d : Deletion) : Prop where
  tally : Tally reqKeyed req d
  kept : Remains n d.node
  expanded : d.node.expanded = true
  inner : ∀ m, d.matched = some m → m.childlist ≠ []

theorem asksWhole_iff {reqKeyed : Bool} {s : KnvNode} :
    s.asksWhole reqKeyed = true ↔ (s.innerExpand reqKeyed false).childlist = [] := by
  rw [asksWhole, childNum, if_pos (innerExpand_expanded ..), decide_eq_true_iff]
  constructor
  · intro h
    exact List.eq_nil_of_length_eq_zero (by omega)
  · intro h
    rw [h]
    exact Int.le_refl 0

variable {rk : Bool} {req n m s c : KnvNode} {matched : Option KnvNode} {acc d : Deletion} {pos : Option ℕ} {a : ℕ}

/-- More turns, and what is given back for them. -/
theorem Tally.append (h : Tally rk req acc) {turns : List Turn} (hpart : ∀ m, d.matched = some m → PartOf rk req m)
    (hturns : d.turns = acc.turns ++ turns) (hasked : ∀ t ∈ turns, ∃ q, Asks rk req t.path q ∧ q.childlist = [])
    (hsound : ∀ t ∈ turns, t.Sound)
    (htold : ∀ p π, Appears d.matched (p :: π) ↔ Appears acc.matched (p :: π) ∨ ∃ t ∈ turns, t.path = p :: π ∧ t.Tells) :
    Tally rk req d := by
  refine ⟨hpart, fun t ht => ?_, fun t ht => ?_, fun p π => ?_⟩
  · rcases List.mem_append.mp (hturns ▸ ht) with ht | ht
    · exact h.asked t ht
    · exact hasked t ht
  · rcases List.mem_append.mp (hturns ▸ ht) with ht | ht
    · exact h.sound t ht
    · exact hsound t ht
  · rw [htold, h.told, hturns]
    simp only [List.mem_append, or_and_right, exists_or]

/-- A node below what is given back, and the ways down to it. -/
theorem Rooting.inserted (h : Rooting req m (nodesBelow matched)) (hpart : ∀ m, matched = some m → PartOf rk req m)
    (hc : 0 ≤ c.evalSz) (hways : ∀ π x, WayTo c π x → ∃ q, Asks rk req (c.step :: π) q) {m' : KnvNode}
    (hm' : m' = (innerInsertChild c true true true m).node) : PartOf rk req m' ∧ m'.childlist ≠ [] ∧
      ∀ p π, Appears (some m') (p :: π) ↔ Appears matched (p :: π) ∨ c.step = p ∧ Appears (some c) π := by
  have hins := h.insert hc
  rw [← hm'] at hins
  refine ⟨⟨hins.step, hins.evaluated, fun x hx π y hy => ?_⟩, ?_, fun p π => ?_⟩
  · rw [hins.childlist] at hx
    rcases List.mem_append.mp hx with hx | hx
    · cases matched with
      | none => exact absurd hx List.not_mem_nil
      | some m₀ => exact (hpart m₀ rfl).ways x hx π y hy
    · rw [List.mem_singleton.mp hx] at hy ⊢
      cases π with
      | nil => exact hways [] c (.here c)
      | cons p π =>
        obtain ⟨z, hz, hstep, hon⟩ := wayTo_cons_iff.mp hy
        exact hways (p :: π) y (wayTo_cons_iff.mpr ⟨z, hz, hstep, hon⟩)
  · rw [hins.childlist]
    simp
  · rw [appears_cons_iff, appears_cons_iff, show nodesBelow (some m') = _ from hins.childlist]
    simp only [List.mem_append, List.mem_singleton, or_and_right, exists_or, exists_eq_left]
    rw [appears_at']
    rfl

/-- The turns of a deletion in a child, and that of a leaf that is put to the child itself. -/
theorem told_below (h : Deleted rk s c d) {t : Turn} (hpath : t.path = [s.step])
    (hwhole : s.asksWhole rk = true → (t.Tells ↔ d.matched.isSome)) (p : Step) (π : List Step) :
    (∃ u ∈ d.turns.map (·.under s.step) ++ (if s.asksWhole rk then [t] else []), u.path = p :: π ∧ u.Tells) ↔
      s.step = p ∧ Appears d.matched π := by
  constructor
  · rintro ⟨u, hu, hup, htells⟩
    rcases List.mem_append.mp hu with hu | hu
    · obtain ⟨v, hv, rfl⟩ := List.mem_map.mp hu
      rw [Turn.path_under] at hup
      obtain ⟨hstep, hvp⟩ := List.cons.inj hup
      cases π with
      | nil => exact absurd hvp v.path_ne_nil
      | cons q π => exact ⟨hstep, (h.tally.told q π).mpr ⟨v, hv, hvp, htells⟩⟩
    · split at hu
      · next hask =>
        rw [List.mem_singleton.mp hu] at hup htells
        obtain ⟨hstep, rfl⟩ := List.cons.inj (hpath.symm.trans hup)
        obtain ⟨m, hm⟩ := Option.isSome_iff_exists.mp ((hwhole hask).mp htells)
        rw [hm]
        exact ⟨hstep, appears_nil_iff.mpr ((h.leaf m hm).mpr hask)⟩
      · exact absurd hu List.not_mem_nil
  · rintro ⟨rfl, happ⟩
    cases π with
    | nil =>
      have happ' := happ
      obtain ⟨m, hm, -⟩ := happ'
      rw [hm] at happ
      have hask := (h.leaf m hm).mp (appears_nil_iff.mp happ)
      refine ⟨t, List.mem_append_right _ ?_, hpath, (hwhole hask).mpr (hm ▸ rfl)⟩
      rw [if_pos hask]
      exact List.mem_singleton.mpr rfl
    | cons q π =>
      obtain ⟨v, hv, hvp, htells⟩ := (h.tally.told q π).mp happ
      exact ⟨v.under s.step, List.mem_append_left _ (List.mem_map.mpr ⟨v, hv, rfl⟩), by rw [Turn.path_under, hvp], htells⟩

/-- What a leaf with a key finds. -/
theorem found_keyed {t : Turn} (hget : t.before.ht.get t.before.look t.tag t.key.bytes = some a)
    (hfind : (t.before.childlist.find? fun c => c.self = a) = some c) (hnd : t.before.childAddrs.Nodup)
    (hkey : t.key.bytes ≠ []) :
    c.tag = t.tag ∧ (t.meets = true ↔ c.key = t.key) ∧
    (t.bare = true ↔ (c.getChildNum (t.before.key.bytes != [])).2 = 0) := by
  have hfound : t.found = some c := by rw [Turn.found, hget, Option.bind_some, hfind]
  have hlook : t.before.look a = (t.tag, t.key.bytes) := by
    rw [KnvHt.get] at hget
    simpa using List.find?_some hget
  have hself : c.self = a := by simpa using List.find?_some hfind
  rw [← hself, look_child hnd (List.mem_of_find?_eq_some hfind)] at hlook
  refine ⟨congrArg Prod.fst hlook, ?_, ?_⟩
  · rw [Turn.meets, if_neg hkey, hfound]
    exact decide_eq_true_iff
  · rw [Turn.bare, hfound, decide_eq_false hkey, Bool.false_or]
    exact decide_eq_true_iff

/-- **A turn of the loop: the deletion in a child**, and what comes of the child. -/
theorem underway_deleteAt (h : Underway rk req n acc) (hmade : Made req) {delete : Bool → KnvNode → Deletion}
    (hs : s ∈ (req.innerExpand rk false).childlist) (hdelete : ∀ pk c, Shaped c → ∀ k, (delete pk c).ret = .ok k →
      Deleted (req.key.bytes != []) s c (delete pk c))
    (hturn : s.asksWhole (req.key.bytes != []) = true → s.key.bytes ≠ [] ∧
    acc.node.ht.get acc.node.look s.tag s.key.bytes = some a)
    {k : ℕ} (hret : (deleteAt delete (req.innerExpand rk false) s pos a acc).ret = .ok k) :
    Underway rk req n (deleteAt delete (req.innerExpand rk false) s pos a acc) := by
  have hsame := expandSame rk false req
  obtain heq | ⟨c, ret, matched, hfind, hok, hadd, n', ups, msgs, hhandle, heq⟩ := deleteAt_ok hret
  · rw [heq]
    exact h
  rw [heq]
  rw [hsame.key] at heq ⊢
  have hc := List.mem_of_find?_eq_some hfind
  have hshaped := h.kept.shaped
  have hdel := hdelete (acc.node.key.bytes != []) c (hshaped.children c hc) ret hok
  generalize delete (acc.node.key.bytes != []) c = r at hok hadd hhandle hdel ⊢
  -- the node, with the child back in its place
  obtain ⟨hset, haddrs, hmem⟩ := Remains.setChildNode hshaped hc hdel.kept
  have htouched : Touched (acc.node.setChildNode r.node) n' := by
    rw [show n' = _ from congrArg Prod.fst hhandle]
    exact touched_handleAll ..
  have hback := htouched.remains hset
  have haddrs' : n'.childAddrs = acc.node.childAddrs := by
    rw [childAddrs, htouched.childlist]
    exact haddrs
  obtain ⟨hsettle, hexp, hgone⟩ := remains_settle hback.shaped (htouched.childlist ▸ hmem) pos ret
  -- the turn of a leaf with a key
  set t : Turn := ⟨[], s.tag, s.key, acc.node, (settle pos ret r.node n').node⟩ with ht
  have hleaf : s.asksWhole (req.key.bytes != []) = true → (t.Tells ↔ r.matched.isSome) ∧ t.Sound := by
    intro hask
    obtain ⟨hkey, hget⟩ := hturn hask
    obtain ⟨htag, hmeets, hbare⟩ := found_keyed (t := t) hget hfind hshaped.here.nodup_children hkey
    obtain ⟨hsome, hret, hnode⟩ := hdel.whole hask hkey htag
    have hone : ret = 1 ↔ c.key = s.key := by
      rw [Except.ok.inj (hok.symm.trans hret)]
      split <;> simp [*]
    have hremoved := @Turn.removed_erase t c.self _ _ hshaped.here.nodup_children (List.mem_map.mpr ⟨c, hc, rfl⟩)
      (hgone.trans (by rw [haddrs', hnode, htouched.key]))
    refine ⟨?_, ?_⟩
    · rw [Turn.Tells, hmeets, hsome]
      exact or_iff_right hkey
    · rw [Turn.Sound, hremoved, hmeets, hbare, hone]
      exact or_congr_right (and_iff_right hkey).symm
  have htold := told_below hdel (t := t) rfl fun hask => (hleaf hask).1
  have hpart : ∀ m, r.matched = some m → 0 ≤ m.evalSz ∧ m.step = s.step ∧ ∀ π x, WayTo m π x →
    ∃ q, Asks rk req (m.step :: π) q := by
    intro m hm
    have hp := hdel.tally.part m hm
    refine ⟨hp.evaluated, hp.root, fun π x hx => ?_⟩
    rw [hp.root]
    cases π with
    | nil => exact ⟨_, .child hs (.here ..)⟩
    | cons p π =>
      obtain ⟨y, hy, hstep, hon⟩ := wayTo_cons_iff.mp hx
      obtain ⟨q, hq⟩ := hp.ways y hy π x hon
      exact ⟨q, .child hs (hstep ▸ hq)⟩
  have hmatched : (∀ m, matched = some m → PartOf rk req m ∧ m.childlist ≠ []) ∧
      ∀ p π, Appears matched (p :: π) ↔ Appears acc.matched (p :: π) ∨ s.step = p ∧ Appears r.matched π := by
    rcases addMatch_ok hadd with ⟨hnone, rfl⟩ | ⟨m, m₀, hsome, htree, rfl⟩
    · refine ⟨fun m hm => ⟨h.tally.part m hm, h.inner m hm⟩, fun p π => ?_⟩
      rw [hnone]
      refine (or_iff_left fun happ => ?_).symm
      obtain ⟨-, m, hm, -⟩ := happ
      cases hm
    · obtain ⟨hev, hstep, hways⟩ := hpart m hsome
      have hroot : Rooting req m₀ (nodesBelow acc.matched) := rooting_made hmade (h.tally.part · ·) htree
      obtain ⟨hp, hne, happ⟩ := hroot.inserted h.tally.part hev hways rfl
      refine ⟨fun m' hm' => Option.some.inj hm' ▸ ⟨hp, hne⟩, fun p π => ?_⟩
      rw [hsome, ← hstep]
      exact happ p π
  refine ⟨h.tally.append (fun m hm => (hmatched.1 m hm).1) rfl ?_ ?_ fun p π => ?_, h.kept.trans (hback.trans hsettle), ?_,
    fun m hm => (hmatched.1 m hm).2⟩
  · intro u hu
    rcases List.mem_append.mp hu with hu | hu
    · obtain ⟨v, hv, rfl⟩ := List.mem_map.mp hu
      obtain ⟨q, hq, hnil⟩ := hdel.tally.asked v hv
      exact ⟨q, .child hs hq, hnil⟩
    · split at hu
      · next hask =>
        rw [List.mem_singleton.mp hu]
        exact ⟨_, .child hs (.here ..), asksWhole_iff.mp hask⟩
      · exact absurd hu List.not_mem_nil
  · intro u hu
    rcases List.mem_append.mp hu with hu | hu
    · obtain ⟨v, hv, rfl⟩ := List.mem_map.mp hu
      exact hdel.tally.sound v hv
    · split at hu
      · next hask => exact List.mem_singleton.mp hu ▸ (hleaf hask).2
      · exact absurd hu List.not_mem_nil
  · rw [htold]
    exact hmatched.2 p π
  · exact hexp.trans (htouched.expanded.trans h.expanded)

/-- **A turn of the loop: a leaf without a key.** -/
theorem underway_deleteByTag (h : Underway rk req n acc) (hmade : Made req) (hv : n.isValid = true)
    (hs : s ∈ (req.innerExpand rk false).childlist) (hs' : Made s) (hkey : s.key.bytes = [])
    (hask : s.asksWhole (req.key.bytes != []) = true) {pl : Place} {k : ℕ}
    (hret : (deleteByTag pl (req.innerExpand rk false) (s.innerExpand (req.key.bytes != []) false) acc).ret = .ok k) :
    Underway rk req n (deleteByTag pl (req.innerExpand rk false) (s.innerExpand (req.key.bytes != []) false) acc) := by
  have hsame := expandSame (req.key.bytes != []) false s
  obtain heq | ⟨d, m, msgs, hcopy, htree, heq⟩ := deleteByTag_ok hret
  · rw [heq]
    exact h
  rw [heq, hsame.tag, hsame.key]
  obtain ⟨hstep, hnil, hev⟩ := hs'.copy hcopy
  have hvalid : acc.node.isValid = true := by
    rw [isValid, show acc.node.tag = n.tag from congrArg (fun p => p.2.1) h.kept.face]
    exact hv
  obtain ⟨hkept, hexp, hgone⟩ := remains_removeChildrenByTag h.kept.shaped hvalid h.expanded s.tag pl
  set t : Turn := ⟨[], s.tag, s.key, acc.node, (acc.node.removeChildrenByTag s.tag pl).node⟩ with ht
  have hways : ∀ π x, WayTo d π x → ∃ q, Asks rk req (d.step :: π) q := by
    intro π x hx
    rw [hstep]
    cases π with
    | nil => exact ⟨_, .child hs (.here ..)⟩
    | cons p π =>
      obtain ⟨y, hy, -⟩ := wayTo_cons_iff.mp hx
      exact absurd (hnil ▸ hy) List.not_mem_nil
  obtain ⟨hp, hne, happ⟩ := (rooting_made hmade h.tally.part htree).inserted h.tally.part hev hways rfl
  have hall : ∀ {P : Turn → Prop}, P t → ∀ u ∈ [t], P u := fun hP u hu => List.mem_singleton.mp hu ▸ hP
  refine ⟨h.tally.append (fun m' hm' => Option.some.inj hm' ▸ hp) rfl
    (hall ⟨_, .child hs (.here ..), asksWhole_iff.mp hask⟩)
    (hall (Turn.sound_byTag hkey h.kept.shaped.here.nodup_children hgone)) fun p π => ?_, h.kept.trans hkept, hexp,
    fun m' hm' => Option.some.inj hm' ▸ hne⟩
  rw [happ, hstep]
  refine or_congr_right ?_
  simp only [List.mem_singleton, exists_eq_left]
  have hpath : t.path = [s.step] := rfl
  constructor
  · rintro ⟨rfl, hd⟩
    cases π with
    | nil => exact ⟨hpath, .inl hkey⟩
    | cons q π =>
      obtain ⟨x, hx, -⟩ := appears_cons_iff.mp hd
      exact absurd (show x ∈ ([] : List KnvNode) from hnil ▸ hx) List.not_mem_nil
  · rintro ⟨hup, -⟩
    obtain ⟨hstep, rfl⟩ := List.cons.inj (hpath.symm.trans hup)
    exact ⟨hstep, appears_nil_iff.mpr hnil⟩

/-- **A turn of the loop over the children of a request.** -/
theorem underway_deleteChild (h : Underway rk req n acc) (hmade : Made req) (hv : n.isValid = true)
    {delete : KnvNode → Bool → KnvNode → Deletion} (hs : s ∈ (req.innerExpand rk false).childlist)
    (hdelete : ∀ pk c, Shaped c → ∀ k, (delete s pk c).ret = .ok k → Deleted (req.key.bytes != []) s c (delete s pk c))
    {pl : Place} {k : ℕ} (hret : (deleteChild delete pl (req.innerExpand rk false) s acc).ret = .ok k) :
    Underway rk req n (deleteChild delete pl (req.innerExpand rk false) s acc) := by
  have hs' : Made s := made_of_innerExpand hmade.childlist hs
  unfold deleteChild at hret ⊢
  rw [(expandSame rk false req).key] at hret ⊢
  by_cases hkey : s.key.bytes ≠ []
  · rw [if_pos hkey] at hret ⊢
    cases hget : acc.node.ht.get acc.node.look s.tag s.key.bytes with
    | none => exact h
    | some a =>
      rw [hget] at hret
      exact underway_deleteAt h hmade hs hdelete (fun _ => ⟨hkey, hget⟩) hret
  · rw [if_neg hkey] at hret ⊢
    have hnil := not_not.mp hkey
    by_cases hask : s.asksWhole (req.key.bytes != []) = true
    · rw [if_pos hask] at hret ⊢
      exact underway_deleteByTag h hmade hv hs hs' hnil hask hret
    · rw [if_neg hask] at hret ⊢
      exact each_rule (fun a _ acc hacc k hk => underway_deleteAt hacc hmade hs hdelete (fun h => absurd h hask) hk) h hret

/-! ### Whole deletions -/

/-- The match for a request for the node as a whole. -/
theorem wholeMatch_made (h : Made req) (htag : req.tag ≠ 0) :
    ∃ m, wholeMatch req = some m ∧ m.step = req.step ∧ 0 ≤ m.evalSz ∧ m.childlist = [] := by
  unfold wholeMatch
  by_cases hkey : req.key.bytes ≠ []
  · obtain ⟨t, ht, hask, -, hnil⟩ := asking_newTree htag h.canonical
    rw [if_pos hkey, ht]
    exact ⟨t, rfl, Prod.ext hask.tag hask.key, hask.evalSz, hnil⟩
  · rw [if_neg hkey, new, if_neg htag]
    exact ⟨_, rfl, Prod.ext rfl (h.key_of_nil (not_not.mp hkey)).symm, (shape_initNode ..).evaluated, rfl⟩

/-- Nothing is given back, and there was no turn. -/
theorem tally_none (hmatched : d.matched = none) (hturns : d.turns = []) : Tally rk req d where
  part m hm := by cases hmatched.symm.trans hm
  asked t ht := absurd (hturns ▸ ht) List.not_mem_nil
  sound t ht := absurd (hturns ▸ ht) List.not_mem_nil
  told p π := by
    rw [hmatched, hturns]
    refine iff_of_false (fun happ => ?_) (by simp)
    obtain ⟨m, hm, -⟩ := happ
    cases hm

/-- **`DeleteSubTree`**, where it does not fail. -/
theorem deleted_deleteSubTreeFuel : ∀ {fuel : ℕ} {rk : Bool} {req : KnvNode} {pk : Bool} {n : KnvNode}, Made req →
    req.weight ≤ fuel → Shaped n → ∀ k, (deleteSubTreeFuel fuel rk req pk n).ret = .ok k →
    Deleted rk req n (deleteSubTreeFuel fuel rk req pk n) := by
  intro fuel
  induction fuel with
  | zero => exact fun _ hle => absurd (weight_pos _) (Nat.not_lt.mpr hle)
  | succ fuel ih =>
    intro rk req pk n hmade hle hshaped k hret
    rw [deleteSubTreeFuel] at hret ⊢
    by_cases htag : req.tag = 0
    · rw [if_pos htag] at hret
      cases hret
    rw [if_neg htag] at hret ⊢
    by_cases hother : n.tag ≠ req.tag ∨ (req.key.bytes ≠ [] ∧ n.key ≠ req.key)
    · -- no same node
      rw [if_pos hother]
      refine ⟨tally_none rfl rfl, ⟨hshaped, rfl⟩, fun m hm => (by cases hm), fun _ hkey hsame => ?_⟩
      have hne : n.key ≠ req.key := hother.elim (fun h => absurd hsame h) (·.2)
      rw [if_neg hne]
      exact ⟨iff_of_false Bool.false_ne_true hne, rfl, rfl⟩
    rw [if_neg hother] at hret ⊢
    by_cases hask : req.asksWhole rk = true
    · -- the whole node
      rw [if_pos hask]
      obtain ⟨m, hm, hstep, hev, hnil⟩ := wholeMatch_made hmade htag
      rw [hm]
      have hleaf : ∀ m', some m = some m' → m'.childlist = [] := fun m' hm' => Option.some.inj hm' ▸ hnil
      refine ⟨⟨fun m' hm' => ?_, fun t ht => (by cases ht), fun t ht => (by cases ht), fun p π => ?_⟩, ⟨hshaped, rfl⟩,
        fun m' hm' => iff_of_true (hleaf m' hm') hask, fun _ hkey hsame => ?_⟩
      · obtain rfl := Option.some.inj hm'
        exact ⟨hstep, hev, fun c hc => absurd (hnil ▸ hc) List.not_mem_nil⟩
      · refine iff_of_false (fun happ => ?_) (by simp)
        obtain ⟨c, hc, -⟩ := appears_cons_iff.mp happ
        exact absurd (show c ∈ ([] : List KnvNode) from hnil ▸ hc) List.not_mem_nil
      · have heq : n.key = req.key := by
          by_contra hne
          exact hother (.inr ⟨hkey, hne⟩)
        rw [if_pos heq]
        exact ⟨iff_of_true rfl heq, rfl, rfl⟩
    rw [if_neg hask] at hret ⊢
    simp only at hret ⊢
    have hexp := innerExpand_expanded pk (!(req.innerExpand rk false).childHasKey) n
    have hkept := remains_innerExpand hshaped pk (!(req.innerExpand rk false).childHasKey)
    generalize n.innerExpand pk (!(req.innerExpand rk false).childHasKey) = n' at hexp hkept hret ⊢
    by_cases hnone : n'.childNum ≤ 0
    · rw [if_pos hnone]
      exact ⟨tally_none rfl rfl, hkept, fun m hm => (by cases hm), fun h => absurd h hask⟩
    rw [if_neg hnone] at hret ⊢
    -- the loop over the children of the request
    have hvalid : n.isValid = true := by
      rw [isValid, bne_iff_ne, not_not.mp fun hne => hother (.inl hne)]
      exact htag
    have hstart : Underway rk req n { node := n' } := ⟨tally_none rfl rfl, hkept, hexp, fun m hm => (by cases hm)⟩
    have hkey := (expandSame rk false req).key
    rw [hkey] at hret ⊢
    have hloop := @each_rule _ (Underway rk req n) (deleteChild (deleteSubTreeFuel fuel (req.key.bytes != [])) ⟨pk, false⟩
      (req.innerExpand rk false)) (req.innerExpand rk false).childlist { node := n' } (fun s hs acc hacc k hk =>
        underway_deleteChild hacc hmade hvalid hs (fun pk c hc k hk => ih (made_of_innerExpand hmade.childlist hs)
          (Nat.le_of_lt_succ (Nat.lt_of_lt_of_le (weight_innerExpand hs) hle)) hc k hk) hk) hstart
    generalize Deletion.each (deleteChild (deleteSubTreeFuel fuel (req.key.bytes != [])) ⟨pk, false⟩
      (req.innerExpand rk false)) (req.innerExpand rk false).childlist { node := n' } = acc at hloop hret ⊢
    cases hacc : acc.ret with
    | error e =>
      simp only [hacc] at hret
      cases hret
    | ok r =>
      have h := hloop hacc
      exact ⟨⟨h.tally.part, h.tally.asked, h.tally.sound, h.tally.told⟩, h.kept.trans (remains_getChildNum h.kept.shaped pk),
        fun m hm => iff_of_false (h.inner m hm) hask, fun h => absurd h hask⟩

/-! ### What is reported -/

/-- **`match_req_tree` reports exactly the requests that removed something**: it is a part of the request at the same ways,
and a leaf below the root of the request is in it iff, in one of its turns, a node has lost children. -/
structure Reports (req : KnvNode) (d : Deletion) : Prop where
  part : ∀ m, d.matched = some m → m.step = req.step ∧ ∀ π x, WayTo m π x → ∃ q, Asks false req π q
  leaves : ∀ π q, π ≠ [] → Asks false req π q → q.childlist = [] →
    (Appears d.matched π ↔ ∃ t ∈ d.turns, t.path = π ∧ t.removed ≠ [])

/-- Every leaf that goes by its tag alone, or that finds a node without children, has what it asks for in one of the
nodes that it is put to. -/
def Answers (turns : List Turn) : Prop := ∀ t ∈ turns, t.bare → ∃ u ∈ turns, u.path = t.path ∧ u.meets

instance (turns : List Turn) : Decidable (Answers turns) := inferInstanceAs (Decidable (∀ t ∈ turns, _))

theorem key_of_path {t u : Turn} (h : u.path = t.path) : u.key = t.key :=
  congrArg Prod.snd (List.singleton_inj.mp (List.append_inj' h rfl).2)

/-- The leaves that tell are those that remove something, where all are answered. -/
theorem answers_iff {turns : List Turn} (hsound : ∀ t ∈ turns, t.Sound) : Answers turns ↔
    ∀ t₀ ∈ turns, ((∃ t ∈ turns, t.path = t₀.path ∧ t.Tells) ↔ ∃ t ∈ turns, t.path = t₀.path ∧ t.removed ≠ []) := by
  constructor
  · intro hans t₀ _
    constructor
    · rintro ⟨t, ht, hpath, hnil | hmeets⟩
      · have hbare : t.bare = true := by rw [Turn.bare, decide_eq_true hnil, Bool.true_or]
        obtain ⟨u, hu, hsame, hmeets⟩ := hans t ht hbare
        exact ⟨u, hu, hsame.trans hpath, (hsound u hu).mpr (.inl hmeets)⟩
      · exact ⟨t, ht, hpath, (hsound t ht).mpr (.inl hmeets)⟩
    · rintro ⟨t, ht, hpath, hremoved⟩
      rcases (hsound t ht).mp hremoved with hmeets | ⟨-, hbare⟩
      · exact ⟨t, ht, hpath, .inr hmeets⟩
      · obtain ⟨u, hu, hsame, hmeets⟩ := hans t ht hbare
        exact ⟨u, hu, hsame.trans hpath, .inr hmeets⟩
  · intro hiff t ht hbare
    by_cases hnil : t.key.bytes = []
    · -- a leaf without a key tells always
      obtain ⟨u, hu, hpath, hremoved⟩ := (hiff t ht).mp ⟨t, ht, rfl, .inl hnil⟩
      rcases (hsound u hu).mp hremoved with hmeets | ⟨hne, -⟩
      · exact ⟨u, hu, hpath, hmeets⟩
      · exact absurd (key_of_path hpath ▸ hnil) hne
    · -- a node without children goes always
      obtain ⟨u, hu, hpath, htells⟩ := (hiff t ht).mpr ⟨t, ht, rfl, (hsound t ht).mpr (.inr ⟨hnil, hbare⟩)⟩
      rcases htells with hne | hmeets
      · exact absurd (key_of_path hpath ▸ hne) hnil
      · exact ⟨u, hu, hpath, hmeets⟩

/-- What is reported of a deletion that did not fail. -/
theorem Tally.answered_iff (h : Tally false req d) : Reports req d ↔ Answers d.turns := by
  have hpart : ∀ m, d.matched = some m → m.step = req.step ∧ ∀ π x, WayTo m π x → ∃ q, Asks false req π q := by
    intro m hm
    refine ⟨(h.part m hm).root, fun π x hx => ?_⟩
    cases π with
    | nil => exact ⟨_, .here ..⟩
    | cons p π =>
      obtain ⟨c, hc, hstep, hon⟩ := wayTo_cons_iff.mp hx
      exact hstep ▸ (h.part m hm).ways c hc π x hon
  have htold : ∀ π, π ≠ [] → (Appears d.matched π ↔ ∃ t ∈ d.turns, t.path = π ∧ t.Tells) := by
    intro π hπ
    cases π with
    | nil => exact absurd rfl hπ
    | cons p π => exact h.told p π
  rw [answers_iff h.sound]
  constructor
  · intro hrep t ht
    obtain ⟨q, hq, hnil⟩ := h.asked t ht
    rw [← htold t.path t.path_ne_nil]
    exact hrep.leaves t.path q t.path_ne_nil hq hnil
  · refine fun hiff => ⟨hpart, fun π q hπ _ _ => ?_⟩
    rw [htold π hπ]
    constructor
    · rintro ⟨t, ht, rfl, htells⟩
      exact (hiff t ht).mp ⟨t, ht, rfl, htells⟩
    · rintro ⟨t, ht, rfl, hremoved⟩
      exact (hiff t ht).mpr ⟨t, ht, rfl, hremoved⟩

theorem Made.shaped (h : Made s) : Shaped s := by
  obtain ⟨f, sz, a, rfl⟩ := h
  exact .of_nil (shape_at'.mpr (shape_initNode ..)) rfl rfl

/-- A deletion in a tree by a request, both of which have been read from bytes. -/
theorem deleted_of_bytes {data bytes : Bytes} (hn : newFromBytes data = .ok n) (hreq : newFromBytes bytes = .ok req) {k : ℕ}
    (hret : (deleteSubTree req false n).ret = .ok k) : Deleted false req n (deleteSubTree req false n) :=
  deleted_deleteSubTreeFuel (made_newFromBytes hreq) (Nat.le_refl _) (made_newFromBytes hn).shaped k hret

/-- **A deletion reports what has removed something iff every leaf is answered** that goes by its tag alone, or that finds
a node without children. -/
theorem reports_iff {data bytes : Bytes} {n req : KnvNode} (hn : newFromBytes data = .ok n)
    (hreq : newFromBytes bytes = .ok req)
    {k : ℕ} (hret : (deleteSubTree req false n).ret = .ok k) :
    Reports req (deleteSubTree req false n) ↔ Answers (deleteSubTree req false n).turns :=
  (deleted_of_bytes hn hreq hret).tally.answered_iff

theorem reports_iff_request : ∃ n req,
    newFromBytes [162, 6, 14, 162, 1, 8, 8, 7, 168, 1, 5, 176, 1, 6, 184, 1, 1] = .ok n ∧
    newFromBytes [162, 6, 11, 162, 1, 5, 8, 7, 168, 1, 1, 184, 1, 1] = .ok req ∧
    Reports req (deleteSubTree req false n) :=
  ⟨_, _, rfl, rfl, (@reports_iff [162, 6, 14, 162, 1, 8, 8, 7, 168, 1, 5, 176, 1, 6, 184, 1, 1]
    [162, 6, 11, 162, 1, 5, 8, 7, 168, 1, 1, 184, 1, 1] _ _ rfl rfl 0 (by decide +kernel)).mpr (by decide +kernel)⟩

/-- **A request for a tag that no child has is given back**, though nothing has been removed. -/
theorem not_reports : ¬∀ (data bytes : Bytes) (n req : KnvNode) (k : ℕ), newFromBytes data = .ok n →
    newFromBytes bytes = .ok req → n.tag = req.tag → n.key = req.key → (deleteSubTree req false n).ret = .ok k →
    Reports req (deleteSubTree req false n) := by
  intro h
  obtain ⟨n, hn⟩ : ∃ n, newFromBytes [162, 6, 3, 168, 1, 5] = .ok n := ⟨_, rfl⟩
  obtain ⟨req, hreq⟩ : ∃ n, newFromBytes [162, 6, 3, 160, 1, 1] = .ok n := ⟨_, rfl⟩
  have hrun : (deleteSubTree req false n).ret = .ok 0 ∧ n.tag = req.tag ∧ n.key = req.key ∧
      ¬Answers (deleteSubTree req false n).turns := by
    cases hn
    cases hreq
    exact ⟨rfl, rfl, rfl, by decide +kernel⟩
  obtain ⟨hret, htag, hkey, hnot⟩ := hrun
  exact hnot ((deleted_of_bytes hn hreq hret).tally.answered_iff.mp (h _ _ n req 0 hn hreq htag hkey hret))

end KnvNode

end KnvProto
