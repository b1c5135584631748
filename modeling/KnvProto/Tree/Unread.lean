import KnvProto.Tree.OwnRequest
import KnvProto.Tree.Wiped

/-!
# What a query reads of an earlier life

`GetSubTree` reads two members that a node may have from an earlier life. It takes a meta
from `metas[]` without looking whether there are metas, and it takes `child_has_key` of a
request, and of a node, to decide where the children with a tag are to be found.

Where neither is read (`Unread`, for the requests that are put to a node, and `SameFlags`,
for the requests themselves), twins answer alike (`answers_innerGetSubTree`).
-/

namespace KnvProto.KnvNode

/-! ### The members -/

/-- `metas[tag]` is empty, or points to a meta of the node. -/
def HasEntry (n : KnvNode) (tag : UInt32) : Prop := n.metas tag = none ∨ (n.metaAt tag).isSome

/-- The children with a tag and no key, as the index has them. -/
def inIndex (n : KnvNode) (tag : UInt32) : List ℕ := (n.ht.getChain n.look tag []).filter fun a => (n.look a).1 = tag

/-- The children with a tag, as the list has them. -/
def inList (n : KnvNode) (tag : UInt32) : List ℕ := (n.childlist.filter fun c => c.tag = tag).map (·.self)

/-- Two expanded nodes in which the requests `W` read nothing of an earlier life. -/
structure UnreadHere (W : KnvNode → Prop) (n m : KnvNode) : Prop where
  /-- A meta that is asked for is one of the node, or there is none. -/
  metas : ∀ r, W r → 0 < r.childNum → ∀ q ∈ r.metalist, q.asksMeta → HasEntry n q.tag ∧ HasEntry m q.tag
  /-- If the flags differ, a child that is asked for without a key is found in both ways. -/
  flag : n.childHasKey ≠ m.childHasKey → ∀ r, W r → ∀ s ∈ r.childlist, s.key.bytes = [] → n.inIndex s.tag = n.inList s.tag

/-- The requests, expanded, that are put to a child when `W` are put to its parent. -/
def putBelow (W : KnvNode → Prop) (c s : KnvNode) : Prop :=
  ∃ r, W r ∧ ∃ q ∈ r.childlist, Suits q c ∧ s = q.innerExpand (r.key.bytes != []) false

/-- **Two trees in which the requests `W` read nothing of an earlier life**, under a parent that has a key or not. -/
inductive Unread : Bool → (KnvNode → Prop) → KnvNode → KnvNode → Prop
  | mk {pk : Bool} {W : KnvNode → Prop} {n m : KnvNode} :
    (∀ k, 0 < (n.innerExpand pk k).childNum → UnreadHere W (n.innerExpand pk k) (m.innerExpand pk k)) →
    (∀ c ∈ n.childlist, ∀ d ∈ m.childlist, c.self = d.self → Unread (n.key.bytes != []) (putBelow W c) c d) → Unread pk W n m

/-- Two requests whose nodes have the same `child_has_key` where they have children. -/
inductive SameFlags : KnvNode → KnvNode → Prop
  | mk {r r' : KnvNode} : (0 < r.childNum → r.childHasKey = r'.childHasKey) →
    (∀ s ∈ r.childlist, ∀ s' ∈ r'.childlist, s.self = s'.self → SameFlags s s') → SameFlags r r'

/-! ### New nodes -/

theorem innerExpand_innerExpand (n : KnvNode) (pk k pk' k' : Bool) :
    (n.innerExpand pk k).innerExpand pk' k' = n.innerExpand pk k := by
  refine innerExpand_of_expanded (innerExpand_rule (P := fun n' => n'.expanded = true) id fun n' _ h => ?_)
  cases h <;> rfl

theorem mem_parsed_of_child {n c : KnvNode} {pk k : Bool} (hexp : n.expanded = false)
    (hc : c ∈ (n.innerExpand pk k).childlist) :
    c ∈ parsed k n.slots (pbScan n.val.str).1 := by
  have hcases := @innerExpand_cases pk k _ hexp
  generalize n.innerExpand pk k = n' at hc hcases
  cases hcases with
  | leaf _ => exact absurd hc List.not_mem_nil
  | cut _ _ _ _ _ _ _ => exact absurd hc List.not_mem_nil
  | message _ _ _ _ _ _ _ => exact (List.mem_filter.mp hc).1

/-- The children that twins get from an expansion are the same. -/
theorem child_eq_of_twin {n m c d : KnvNode} {pk k : Bool} (h : Twin n m) (hexp : n.expanded = false)
    (hc : c ∈ (n.innerExpand pk k).childlist) (hd : d ∈ (m.innerExpand pk k).childlist) (hself : c.self = d.self) :
    c = d := by
  have hc := mem_parsed_of_child hexp hc
  have hd := mem_parsed_of_child (h.expanded ▸ hexp) hd
  rw [← h.slots, ← h.val] at hd
  refine List.inj_on_of_nodup_map (f := fun x : KnvNode => x.self) ?_ hc hd hself
  show ((parsed k n.slots (pbScan n.val.str).1).map (·.self)).Nodup
  rw [map_self_parsed]
  exact List.nodup_range'

/-- `child_has_key` is counted anew by an expansion. -/
theorem childHasKey_innerExpand {n m : KnvNode} {pk k : Bool} (h : Twin n m) (hexp : n.expanded = false) :
    (n.innerExpand pk k).childHasKey = (m.innerExpand pk k).childHasKey := by
  have hfold : ∀ (fs : List (PbField × ℕ)) (x y : KnvNode), x.childHasKey = y.childHasKey →
      (fs.foldl (expandField k) x).childHasKey = (fs.foldl (expandField k) y).childHasKey := by
    intro fs
    induction fs with
    | nil => exact fun _ _ h => h
    | cons p fs ih =>
      intro x y hxy
      refine ih _ _ ?_
      unfold expandField
      split
      · exact hxy
      · exact congrArg (fun b => (ofField p k).key.bytes != [] || b) hxy
  have hexp' : m.expanded = false := h.expanded ▸ hexp
  unfold innerExpand
  rw [hexp, hexp', h.type, h.tag, h.val]
  simp only [Bool.false_eq_true, if_false]
  split
  · rfl
  split
  · rfl
  split
  · rfl
  split
  · exact hfold _ _ _ rfl
  · exact hfold _ _ _ rfl

/-- What `metas[]` points to while a node is expanded: what it did before, or metas of the node. -/
theorem entries_foldl (k : Bool) (fs : List (PbField × ℕ)) (μ : UInt32 → Option ℕ) : ∀ n : KnvNode,
    n.metalist = [] ∧ n.metas = μ ∨ (n.metalist ≠ [] ∧ ∀ t a, n.metas t = some a → ∃ x ∈ n.metalist, x.self = a) →
    (fs.foldl (expandField k) n).metalist = [] ∧ (fs.foldl (expandField k) n).metas = μ ∨
      ((fs.foldl (expandField k) n).metalist ≠ [] ∧
        ∀ t a, (fs.foldl (expandField k) n).metas t = some a → ∃ x ∈ (fs.foldl (expandField k) n).metalist, x.self = a) := by
  induction fs with
  | nil => exact fun _ h => h
  | cons p fs ih =>
    intro n h
    refine ih _ ?_
    unfold expandField
    split
    · refine .inr ⟨by simp, fun t a ha => ?_⟩
      simp only at ha ⊢
      split at ha
      · exact ⟨_, List.mem_append_right _ (List.mem_singleton_self _), Option.some.inj ha⟩
      · rcases h with ⟨hnil, -⟩ | ⟨hne, hall⟩
        · rw [hnil] at ha
          cases ha
        · rw [if_neg (by simpa using hne)] at ha
          obtain ⟨x, hx, hself⟩ := hall t a ha
          exact ⟨x, List.mem_append_left _ hx, hself⟩
    · exact h

theorem childNum_nonpos {n : KnvNode} (h : n.childlist = []) : ¬0 < n.childNum := by
  unfold childNum
  rw [h]
  split <;> simp

/-- The entries of a new node are its own. -/
theorem hasEntry_innerExpand {n : KnvNode} {pk k : Bool} (hexp : n.expanded = false) (hmetas : n.metas = fun _ => none)
    (h : 0 < (n.innerExpand pk k).childNum) (tag : UInt32) : HasEntry (n.innerExpand pk k) tag := by
  have hfold := entries_foldl k (pbScan n.val.str).1 n.metas
    { n with expanded := true, metalist := [], childlist := [], childHasKey := false } (.inl ⟨rfl, rfl⟩)
  unfold innerExpand at h ⊢
  rw [hexp] at h ⊢
  simp only [Bool.false_eq_true, if_false] at h ⊢
  split at h
  · exact absurd h (childNum_nonpos rfl)
  rw [if_neg ‹_›]
  split at h
  · exact absurd h (childNum_nonpos rfl)
  rw [if_neg ‹_›]
  split at h
  · exact absurd h (childNum_nonpos rfl)
  rw [if_neg ‹_›]
  split at h
  swap
  · exact absurd h (childNum_nonpos rfl)
  rw [if_pos ‹_›]
  generalize (pbScan n.val.str).1.foldl (expandField k) _ = n' at hfold
  rcases hfold with ⟨-, hμ⟩ | ⟨hne, hall⟩
  · exact .inl (by rw [show n'.metas = fun _ => none from hμ.trans hmetas])
  · show n'.metas tag = none ∨ (metaAt { n' with subnodeDirty := false } tag).isSome
    cases ha : n'.metas tag with
    | none => exact .inl rfl
    | some a =>
      obtain ⟨x, hx, hself⟩ := hall tag a ha
      refine .inr ?_
      rw [metaAt, if_neg (by simpa using hne)]
      show ((n'.metas tag).bind fun a => n'.metalist.find? fun m => m.self = a).isSome
      rw [ha, Option.bind_some, List.find?_isSome]
      exact ⟨x, hx, decide_eq_true hself⟩

/-- In the node of a field there is nothing of an earlier life. -/
theorem unread_ofField (p : PbField × ℕ) (k' : Bool) (a : ℕ) (pk : Bool) (W : KnvNode → Prop) :
    Unread pk W ((ofField p k').at' a) ((ofField p k').at' a) := by
  refine .mk (fun k h => ⟨fun r _ _ q _ _ => ?_, fun hne => absurd rfl hne⟩) fun c hc => absurd hc List.not_mem_nil
  cases hexp : ((ofField p k').at' a).expanded with
  | true =>
    rw [innerExpand_of_expanded hexp]
    exact ⟨.inl rfl, .inl rfl⟩
  | false => exact ⟨hasEntry_innerExpand hexp rfl h _, hasEntry_innerExpand hexp rfl h _⟩

/-! ### Expansion -/

theorem Unread.innerExpand {pk k : Bool} {W : KnvNode → Prop} {n m : KnvNode} (h : Unread pk W n m) (ht : Twin n m) :
    Unread pk W (n.innerExpand pk k) (m.innerExpand pk k) := by
  cases hexp : n.expanded with
  | true =>
    rw [innerExpand_of_expanded hexp, innerExpand_of_expanded (ht.expanded ▸ hexp)]
    exact h
  | false =>
    obtain ⟨hhere, -⟩ := h
    refine .mk (fun k' h' => ?_) fun c hc d hd hself => ?_
    · rw [innerExpand_innerExpand] at h' ⊢
      rw [innerExpand_innerExpand]
      exact hhere k h'
    · obtain rfl := child_eq_of_twin ht hexp hc hd hself
      obtain ⟨p, -, a, rfl⟩ := mem_parsed (mem_parsed_of_child hexp hc)
      exact unread_ofField ..

theorem sameFlags_ofField (p : PbField × ℕ) (k : Bool) (a : ℕ) : SameFlags ((ofField p k).at' a) ((ofField p k).at' a) :=
  .mk (fun _ => rfl) fun _ hc => absurd hc List.not_mem_nil

theorem SameFlags.innerExpand {pk k : Bool} {r r' : KnvNode} (h : SameFlags r r') (ht : Twin r r') :
    SameFlags (r.innerExpand pk k) (r'.innerExpand pk k) := by
  cases hexp : r.expanded with
  | true =>
    rw [innerExpand_of_expanded hexp, innerExpand_of_expanded (ht.expanded ▸ hexp)]
    exact h
  | false =>
    refine .mk (fun _ => childHasKey_innerExpand ht hexp) fun c hc d hd hself => ?_
    obtain rfl := child_eq_of_twin ht hexp hc hd hself
    obtain ⟨p, -, a, rfl⟩ := mem_parsed (mem_parsed_of_child hexp hc)
    exact sameFlags_ofField ..

/-! ### Nodes that are replaced below a node -/

/-- The same node, with other nodes below it that look the same to it. -/
structure Rehung (n n' : KnvNode) : Prop where
  data : n'.toKnvData = n.toKnvData
  metalist : n'.metalist.map face = n.metalist.map face
  childlist : n'.childlist.map face = n.childlist.map face

namespace Rehung

variable {n n' : KnvNode}

theorem childNum (h : Rehung n n') : n'.childNum = n.childNum := by
  have hlength : n'.childlist.length =
    n.childlist.length := by rw [← List.length_map (f := face), h.childlist, List.length_map]
  rw [KnvNode.childNum, KnvNode.childNum, h.data, hlength]

theorem look (h : Rehung n n') : n'.look = n.look := look_of_faces h.childlist h.metalist

theorem inIndex (h : Rehung n n') (tag : UInt32) : n'.inIndex tag = n.inIndex tag := by
  rw [KnvNode.inIndex, KnvNode.inIndex, h.look, h.data]

theorem inList (h : Rehung n n') (tag : UInt32) : n'.inList tag = n.inList tag := by
  have hread : ∀ x : KnvNode, x.inList tag = ((x.childlist.map face).filter fun p => p.2.1 = tag).map (·.1) := fun x => by
    rw [List.filter_map, List.map_map]
    rfl
  rw [hread n, hread n', h.childlist]

theorem hasEntry (h : Rehung n n') (tag : UInt32) (hn : HasEntry n tag) : HasEntry n' tag := by
  have hread : ∀ x : KnvNode, (x.metaAt tag).isSome = (if (x.metalist.map face).isEmpty then none else
      (x.metas tag).bind fun a => (x.metalist.map face).find? fun p => p.1 = a).isSome := fun x => by
    rw [metaAt, List.isEmpty_map]
    split
    · rfl
    · cases x.metas tag with
      | none => rfl
      | some a =>
        rw [Option.bind_some, Option.bind_some, List.find?_map, Option.isSome_map]
        rfl
  rw [HasEntry, hread, h.metalist, h.data, ← hread]
  exact hn

end Rehung

theorem UnreadHere.rehung {W : KnvNode → Prop} {n n' m m' : KnvNode} (h : UnreadHere W n m) (hn : Rehung n n')
    (hm : Rehung m m') :
    UnreadHere W n' m' where
  metas r hr hpos q hq hask := (h.metas r hr hpos q hq hask).imp (hn.hasEntry q.tag) (hm.hasEntry q.tag)
  flag hne r hr s hs hkey := by
    rw [hn.inIndex, hn.inList]
    rw [hn.data, hm.data] at hne
    exact h.flag hne r hr s hs hkey

/-- Nodes whose faces are kept, one of them replaced. -/
theorem map_face_replace {l : List KnvNode} {x y : KnvNode} (hnd : (l.map (·.self)).Nodup) (hx : x ∈ l)
    (hface : face y = face x) :
    (l.map fun z => if z.self = y.self then y else z).map face = l.map face := by
  rw [List.map_map]
  refine List.map_congr_left fun z hz => ?_
  simp only [Function.comp_apply]
  split
  · next hself =>
    obtain rfl : x = z := List.inj_on_of_nodup_map (f := fun x : KnvNode => x.self) hnd hx hz
      ((congrArg Prod.fst hface).symm.trans hself.symm)
    exact hface
  · rfl

theorem rehung_setMetaNode {n x y : KnvNode} (hs : Shape n) (hx : x ∈ n.metalist) (hface : face y = face x) :
    Rehung n (n.setMetaNode y) :=
  ⟨rfl, map_face_replace (nodup_metas hs) hx hface, rfl⟩

theorem rehung_setChildNode {n x y : KnvNode} (hs : Shape n) (hx : x ∈ n.childlist) (hface : face y = face x) :
    Rehung n (n.setChildNode y) :=
  ⟨rfl, rfl, map_face_replace hs.nodup_children hx hface⟩

theorem Shaped.setChildNode {n x y : KnvNode} (h : Shaped n) (hy : Shaped y) (hx : x ∈ n.childlist)
    (hface : face y = face x) :
    Shaped (n.setChildNode y) := by
  have hre := rehung_setChildNode h.here hx hface
  refine .mk (h.here.of_sublist (fun hf => ?_) ?_ rfl h.here.evaluated) h.metas fun z hz => ?_
  · obtain ⟨-, hnil⟩ := h.here.folded hf
    rw [hnil] at hx
    exact absurd hx List.not_mem_nil
  · have haddrs : ∀ z : KnvNode, z.addrs = (z.childlist.map face ++ z.metalist.map face).map (·.1) := fun z => by
      rw [addrs, ← List.map_append, List.map_map]
      rfl
    rw [haddrs, haddrs, hre.childlist, hre.metalist]
  · obtain ⟨w, hw, rfl⟩ := List.mem_map.mp hz
    split
    · exact hy
    · exact h.children w hw

/-! ### Pairs of nodes -/

/-- Twins in which the requests `W` read nothing of an earlier life, and which have been expanded. -/
structure Paired (pk : Bool) (W : KnvNode → Prop) (n m : KnvNode) : Prop where
  twin : Twin n m
  shaped : Shaped n
  shaped' : Shaped m
  unread : Unread pk W n m

theorem expanded_of_childNum {n : KnvNode} (h : 0 < n.childNum) : n.expanded = true := by
  unfold childNum at h
  split at h
  · assumption
  · omega

variable {pk : Bool} {W : KnvNode → Prop} {n m : KnvNode}

theorem Paired.here (h : Paired pk W n m) (hpos : 0 < n.childNum) : UnreadHere W n m := by
  have hexp := expanded_of_childNum hpos
  obtain ⟨hhere, -⟩ := h.unread
  have hhere := hhere false
  rw [innerExpand_of_expanded hexp, innerExpand_of_expanded (h.twin.expanded ▸ hexp)] at hhere
  exact hhere hpos

/-- Other nodes are hung below two nodes. -/
theorem Unread.rehung {n' m' : KnvNode} (h : Paired pk W n m) (hpos : 0 < n.childNum) (hn : Rehung n n') (hm : Rehung m m')
    (hchildren : ∀ c ∈ n'.childlist, ∀ d ∈ m'.childlist, c.self = d.self → Unread (n.key.bytes != []) (putBelow W c) c d) :
    Unread pk W n' m' := by
  have hexp := expanded_of_childNum hpos
  refine .mk (fun k _ => ?_) fun c hc d hd hself => ?_
  · rw [innerExpand_of_expanded (show n'.expanded = true by rw [hn.data, hexp]),
      innerExpand_of_expanded (show m'.expanded = true by rw [hm.data, ← h.twin.expanded, hexp])]
    exact (h.here hpos).rehung hn hm
  · rw [hn.data]
    exact hchildren c hc d hd hself

theorem Paired.child (h : Paired pk W n m) {c d : KnvNode} (hc : c ∈ n.childlist) (hd : d ∈ m.childlist) (htwin : Twin c d) :
    Paired (n.key.bytes != []) (putBelow W c) c d := by
  obtain ⟨-, hbelow⟩ := h.unread
  exact ⟨htwin, h.shaped.children c hc, h.shaped'.children d hd, hbelow c hc d hd htwin.self⟩

/-- Metas that keep their faces can be replaced. -/
theorem Paired.setMetaNode (h : Paired pk W n m) (hpos : 0 < n.childNum) {x x' y y' : KnvNode} (hx : x ∈ n.metalist)
    (hx' : x' ∈ m.metalist) (hy : Twin y y') (hs : Shaped y) (hs' : Shaped y') (hface : face y = face x)
    (hface' : face y' = face x') :
    Paired pk W (n.setMetaNode y) (m.setMetaNode y') where
  twin := twin_setMetaNode h.twin hy
  shaped := h.shaped.setMetaNode hs ⟨x, hx, (congrArg Prod.fst hface).symm⟩
  shaped' := h.shaped'.setMetaNode hs' ⟨x', hx', (congrArg Prod.fst hface').symm⟩
  unread := Unread.rehung h hpos (rehung_setMetaNode h.shaped.here hx hface) (rehung_setMetaNode h.shaped'.here hx' hface')
    fun c hc d hd hself => by
      obtain ⟨-, hbelow⟩ := h.unread
      exact hbelow c hc d hd hself

theorem putBelow_congr {c c' : KnvNode} (h : face c' = face c) : putBelow W c' = putBelow W c := by
  have htag : c'.tag = c.tag := congrArg (fun p => p.2.1) h
  have hkey : c'.key = c.key := congrArg (fun p => p.2.2) h
  funext s
  rw [putBelow, putBelow]
  simp only [Suits, htag, hkey]

/-- A child and its twin can be replaced. -/
theorem Paired.setChildNode (h : Paired pk W n m) (hpos : 0 < n.childNum) {c c' d d' : KnvNode} (hc : c ∈ n.childlist)
    (hd : d ∈ m.childlist) (hcd : Paired (n.key.bytes != []) (putBelow W c) c' d') (hface : face c' = face c)
    (hface' : face d' = face d) : Paired pk W (n.setChildNode c') (m.setChildNode d') := by
  have hself : c'.self = c.self := congrArg Prod.fst hface
  have hself' : d'.self = d.self := congrArg Prod.fst hface'
  refine ⟨h.twin.withLists h.twin.metalist (map_wipe_replace h.twin.childlist hcd.twin) id,
    h.shaped.setChildNode hcd.shaped hc hface, h.shaped'.setChildNode hcd.shaped' hd hface', ?_⟩
  refine Unread.rehung h hpos (rehung_setChildNode h.shaped.here hc hface) (rehung_setChildNode h.shaped'.here hd hface')
    fun x hx y hy hxy => ?_
  obtain ⟨-, hbelow⟩ := h.unread
  obtain ⟨z, hz, rfl⟩ := List.mem_map.mp hx
  obtain ⟨w, hw, rfl⟩ := List.mem_map.mp hy
  have hreplaced : ∀ x y : KnvNode, (if x.self = y.self then y else x).self = x.self := fun x y => by
    split
    · next h => exact h.symm
    · rfl
  have hzw : z.self = w.self := by rw [← hreplaced z c', ← hreplaced w d', hxy]
  by_cases hz' : z.self = c'.self
  · rw [if_pos hz', if_pos (by rw [← hzw, hz', hcd.twin.self]), putBelow_congr hface]
    exact hcd.unread
  · rw [if_neg hz', if_neg (by rw [← hzw, ← hcd.twin.self]; exact hz')]
    exact hbelow z hz w hw hzw

/-! ### The walk -/

theorem Twin.dupEmptyNode (h : Twin n m) : n.dupEmptyNode = m.dupEmptyNode := by
  unfold KnvNode.dupEmptyNode
  rw [h.tag, h.type, h.key]

theorem Twin.dupWithKey (h : Twin n m) : n.dupWithKey = m.dupWithKey := by
  rw [KnvNode.dupWithKey, KnvNode.dupWithKey, h.innerDuplicate, h.key]

theorem Twin.asksMeta (h : Twin n m) : n.asksMeta = m.asksMeta := by
  rw [KnvNode.asksMeta, KnvNode.asksMeta, h.tag, h.type, h.val]

/-- In twins with metas, `metas[]` is the same. -/
theorem Twin.metas (h : Twin n m) (hne : n.metalist ≠ []) : n.metas = m.metas := by
  have hread : ∀ x : KnvNode, x.metalist ≠ [] → x.wipe.metas = x.metas := by
    intro x hx
    obtain ⟨d, ms, cs⟩ := x
    rw [wipe_mk]
    simp only [List.isEmpty_eq_false_iff.mpr hx, Bool.false_eq_true, if_false]
  have hne' : m.metalist ≠ [] := fun hnil => hne (List.map_eq_nil_iff.mp (by rw [h.metalist, hnil]; rfl))
  rw [← hread n hne, ← hread m hne', h]

/-- Twins have an entry both, for the same meta, or none. -/
theorem Twin.entry (h : Twin n m) {tag : UInt32} (hn : HasEntry n tag) (hm : HasEntry m tag) :
    n.metas tag = none ∧ m.metas tag = none ∨ ∃ a x x', n.metas tag = some a ∧ m.metas tag = some a ∧
      (n.metalist.find? fun c => c.self = a) = some x ∧ (m.metalist.find? fun c => c.self = a) = some x' ∧ Twin x x' := by
  by_cases hnil : n.metalist = []
  · have hnil' : m.metalist = [] := List.map_eq_nil_iff.mp (by rw [← h.metalist, hnil]; rfl)
    have hnone : ∀ {x : KnvNode}, x.metalist = [] → HasEntry x tag → x.metas tag = none := by
      rintro x hx (h | h)
      · exact h
      · rw [KnvNode.metaAt, hx] at h
        cases h
    exact .inl ⟨hnone hnil hn, hnone hnil' hm⟩
  · have hmetas := h.metas hnil
    rcases hn with hn | hn
    · exact .inl ⟨hn, hmetas ▸ hn⟩
    · obtain ⟨x, hx⟩ := Option.isSome_iff_exists.mp hn
      rw [KnvNode.metaAt, if_neg (by simpa using hnil), Option.bind_eq_some_iff] at hx
      obtain ⟨a, ha, hx⟩ := hx
      have hfound := rel_find? h.metalist a
      rw [hx] at hfound
      generalize hy : (m.metalist.find? fun c => c.self = a) = y at hfound
      cases hfound with
      | some htwin => exact .inr ⟨a, x, _, ha, hmetas ▸ ha, hx, hy, htwin⟩

/-- What a request finds, in the two ways that there are. -/
theorem found_eq (n s : KnvNode) : n.found s = if s.key.bytes ≠ [] then (n.ht.get n.look s.tag s.key.bytes).toList
    else if !n.childHasKey then n.inIndex s.tag else n.inList s.tag := rfl

theorem Suits.congr {s c c' : KnvNode} (h : Suits s c) (hface : face c' = face c) : Suits s c' := by
  have htag : c'.tag = c.tag := congrArg (fun p => p.2.1) hface
  have hkey : c'.key = c.key := congrArg (fun p => p.2.2) hface
  rw [Suits, htag, hkey]
  exact h

theorem Twin.face (h : Twin n m) : KnvNode.face n = KnvNode.face m := by
  rw [KnvNode.face, KnvNode.face, h.self, h.tag, h.key]

theorem Twin.addTo (h : Twin n m) (res : Option KnvNode) (c : KnvNode) : addTo n res c = addTo m res c := by
  rw [KnvNode.addTo, KnvNode.addTo, h.dupEmptyNode]

end KnvProto.KnvNode
