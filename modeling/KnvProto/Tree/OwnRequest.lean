import KnvProto.Node.Request
import KnvProto.Tree.Alike
import KnvProto.Tree.Duplicate

/-!
# A tree is asked what it has

`MakeRequestTree` asks for every child of a tree, down to some level, and
`GetSubTree` is to answer with all of them. A request finds its child by the tag
and the key, and by the tag alone where `MakeRequestTree` has left the key out: it
finds one child, and the child it was made of, where no other child of the node
has the same tag, or both have a key that their requests carry (`Apart`).

`RequestFor` is what `MakeRequestTree` makes, whatever it is made of
(`requestFor_makeRequestTreeLevels`). `answered_of_apart` follows a query down the
request.
-/

namespace KnvProto

namespace KnvNode

/-! ### Copies of whole nodes -/

/-- A copy under the same tag and key that is written as the same bytes. -/
structure Echoed (n o : KnvNode) : Prop where
  tag : o.tag = n.tag
  key : o.key.bytes = n.key.bytes
  /-- `Serialize` writes the same. -/
  bytes : ∃ out, n.serializeStr = .ok out ∧ o.serializeStr = .ok out

theorem evaluateSize_at' (n : KnvNode) (a : ℕ) : (n.at' a).evaluateSize = n.evaluateSize.at' a := by
  obtain ⟨d, ms, cs⟩ := n
  rw [evaluateSize, at', evaluateSize]
  have hleaf : ((⟨{ d with self := a }, ms, cs⟩ : KnvNode).isFolded || (⟨{ d with self := a }, ms, cs⟩ : KnvNode).isClean) =
      ((⟨d, ms, cs⟩ : KnvNode).isFolded || (⟨d, ms, cs⟩ : KnvNode).isClean) := rfl
  simp only [hleaf, apply_ite (fun n : KnvNode => n.at' a)]
  rfl

/-- Where a node hangs is not written. -/
theorem serialize_at' (n : KnvNode) (a len : ℕ) (withHeader : Bool) :
    (n.at' a).serialize len withHeader = n.serialize len withHeader := by
  have heval := evaluateSize_at' n a
  obtain ⟨d, ms, cs⟩ := n
  rw [at'] at heval ⊢
  rw [serialize, serialize, heval]
  rfl

theorem serializeStr_at' (n : KnvNode) (a : ℕ) : (n.at' a).serializeStr = n.serializeStr := by
  rw [serializeStr, serializeStr, evaluateSize_at', serialize_at']
  rfl

theorem Echoed.at' {n o : KnvNode} (h : Echoed n o) (a : ℕ) : Echoed n (o.at' a) :=
  ⟨h.tag, h.key, h.bytes.imp fun out hout => ⟨hout.1, by rw [serializeStr_at', hout.2]⟩⟩

theorem evalSz_initNode_nonneg (tag : UInt32) (type : PbType) (value : Option PbVal) (fieldSz : ℕ) (k : Bool) :
    0 ≤ (initNode tag type value true fieldSz k).evalSz := Int.natCast_nonneg _

/-- The children that a request is made for: those with its tag, and with its key, if it has one. -/
def Suits (s c : KnvNode) : Prop := c.tag = s.tag ∧ (s.key.bytes ≠ [] → c.key.bytes = s.key.bytes)

/-- A tree with one more child at its tail. -/
structure Appended (r t t' : KnvNode) : Prop where
  tag : t'.tag = t.tag
  key : t'.key = t.key
  type : t'.type = t.type
  expanded : t'.expanded = t.expanded
  metalist : t'.metalist = t.metalist
  childlist : t'.childlist = t.childlist ++ [r.at' t.slots]
  evalSz : 0 ≤ t.evalSz → 0 ≤ t'.evalSz

/-- `InnerInsertChild` of a node that is given away. -/
theorem appended_innerInsertChild {r : KnvNode} (hr : 0 ≤ r.evalSz) (updateParent : Bool) (t : KnvNode) :
    Appended r t (innerInsertChild r true updateParent true t).node := by
  have hlink : Appended r t (t.linkChild r true) := ⟨rfl, rfl, rfl, rfl, rfl, rfl, id⟩
  cases updateParent with
  | false =>
    simp only [innerInsertChild, if_true, Bool.not_false, Bool.true_or, evaluateSize_of_nonneg hr]
    exact ⟨rfl, rfl, rfl, rfl, rfl, rfl, id⟩
  | true =>
    simp only [innerInsertChild, if_true, Bool.not_true, Bool.false_or, evaluateSize_of_nonneg hr, ite_self,
      Bool.false_eq_true, if_false]
    have ht := touched_finish (t.linkChild r true) r.evalSz
    exact ⟨ht.tag, ht.key, ht.type, ht.expanded, ht.metalist, ht.childlist, ht.evaluated⟩

/-- The root of a request, under a tag and a key: only its key is a meta. -/
structure Asking (r : KnvNode) (tag : UInt32) (key : KnvKey) : Prop where
  tag : r.tag = tag
  key : r.key = key
  expanded : r.expanded = true
  metas : ∀ m ∈ r.metalist, m.tag = 1
  evalSz : 0 ≤ r.evalSz

theorem Asking.append {r t t' : KnvNode} {tag : UInt32} {key : KnvKey} (h : Asking t tag key) (ha : Appended r t t') :
    Asking t' tag key :=
  ⟨ha.tag.trans h.tag, ha.key.trans h.key, ha.expanded.trans h.expanded, by rw [ha.metalist]; exact h.metas,
    ha.evalSz h.evalSz⟩

theorem Asking.at' {r : KnvNode} {tag : UInt32} {key : KnvKey} (h : Asking r tag key) (a : ℕ) : Asking (r.at' a) tag key :=
  ⟨h.tag, h.key, h.expanded, h.metas, h.evalSz⟩

/-- `NewTree`, with a key that is the key of its own value. -/
theorem asking_newTree {tag : UInt32} (htag : tag ≠ 0) {k : KnvKey} (hk : KnvKey.init k.type (some k.getValue) = k) :
    ∃ t, newTree tag (some k) = .ok t ∧ Asking t tag k ∧ t.type = .string ∧ t.childlist = [] := by
  show ∃ t, new tag .string k.type (some k.getValue) none = .ok t ∧ _
  unfold new
  rw [if_neg htag]
  simp only [hk]
  have hev : 0 ≤ (treeWithKey tag k).evalSz := evalSz_initNode_nonneg tag .string none 0 false
  by_cases hnil : k.bytes = []
  · rw [if_pos hnil]
    exact ⟨_, rfl, ⟨rfl, rfl, rfl, fun m hm => absurd hm List.not_mem_nil, hev⟩, rfl, rfl⟩
  · rw [if_neg hnil]
    have hv : (treeWithKey tag k).isValid = true := by simpa [treeWithKey, isValid, initNode] using htag
    have hset : (treeWithKey tag k).setMetaInner 1 k.type (some k.getValue) true {} =
        ((treeWithKey tag k).addMetaNode 1 k.type (some k.getValue)).finish (metaSize 1 k.type (some k.getValue)) := by
      refine setMetaInner_rule (P := fun o => o = _) (fun h => ?_) fun _ _ _ n' hn' => ?_
      · rcases h with h | h | h
        · rw [hv] at h
          cases h
        · exact absurd rfl h
        · exact absurd h (by decide)
      · rw [innerExpand_of_expanded rfl] at hn'
        subst hn'
        exact ⟨fun m hm => (by cases hm), fun _ => rfl⟩
    rw [treeWithKey] at hset
    rw [hset, ← treeWithKey]
    set t₀ := (treeWithKey tag k).addMetaNode 1 k.type (some k.getValue) with ht₀
    have ht := touched_finish t₀ (metaSize 1 k.type (some k.getValue))
    have hret : (t₀.finish (metaSize 1 k.type (some k.getValue))).ret = .ok 0 := rfl
    rw [hret]
    refine ⟨_, rfl, ⟨ht.tag, ht.key, ht.expanded, fun m hm => ?_, ht.evaluated hev⟩, ht.type, ht.childlist⟩
    rw [ht.metalist] at hm
    rw [List.mem_singleton.mp hm]
    rfl

/-! ### The request of a tree -/

/-- Does a request for the whole node carry its key? -/
def carriesKey (n : KnvNode) : Bool := n.expanded && !n.metalist.isEmpty

/-- A request for a whole node. -/
def RequestWhole (c r : KnvNode) : Prop :=
  Asking r c.tag (if c.carriesKey then c.key else {}) ∧ r.childlist = [] ∧ (r.type ≠ .string → r.val.i64 ≠ 0)

/-- A request for a node, of some levels. -/
def RequestFor : ℕ → KnvNode → KnvNode → Prop
  | 0, c, r => RequestWhole c r
  | levels + 1, c, r =>
    (c.childlist = [] → RequestWhole c r) ∧
      (c.childlist ≠ [] → Asking r c.tag c.key ∧ r.type = .string ∧ List.Forall₂ (RequestFor levels) c.childlist r.childlist)

/-- A node that `MakeRequestTree` makes a request of. -/
structure Requestable (n : KnvNode) : Prop where
  valid : n.isValid = true
  /-- The key is the key of its own value. -/
  key : KnvKey.init n.key.type (some n.key.getValue) = n.key
  /-- It is evaluated. -/
  evalSz : 0 ≤ n.evalSz

/-- The children of a node can be looked up. -/
structure Filed (n : KnvNode) : Prop where
  indexed : Indexed n
  shape : Shape n
  seen : KeysSeen n
  /-- A key names one child. -/
  distinct : ∀ c ∈ n.childlist, ∀ d ∈ n.childlist, c.tag = d.tag → c.key.bytes = d.key.bytes → c.key.bytes ≠ [] → c = d

/-- A tree whose bookkeeping is intact, down to some levels that it has been expanded to. -/
def Intact : ℕ → KnvNode → Prop
  | 0, n => Requestable n
  | levels + 1, n => Requestable n ∧ n.expanded = true ∧ (n.childlist ≠ [] → Filed n) ∧ ∀ c ∈ n.childlist, Intact levels c

theorem RequestFor.at' {levels : ℕ} {c r : KnvNode} (h : RequestFor levels c r) (a : ℕ) :
    RequestFor levels c (r.at' a) := by
  cases levels with
  | zero => exact ⟨h.1.at' a, h.2⟩
  | succ levels =>
    exact ⟨fun hcs => ⟨(h.1 hcs).1.at' a, (h.1 hcs).2⟩, fun hcs => ⟨(h.2 hcs).1.at' a, (h.2 hcs).2⟩⟩

/-- A node that is asked, stays as it is and gives out data alone. -/
def Gives (query : KnvNode → Answer) (c o : KnvNode) : Prop := query c = { node := c, out := some o }

/-- A child of `n` that a request finds gives out `o`. -/
def GivesAt (query : KnvNode → Answer) (n : KnvNode) (a : ℕ) (o : KnvNode) : Prop :=
  ∃ c ∈ n.childlist, c.self = a ∧ Gives query c o

/-- What the children of `n` give out that a request finds, and it finds one. -/
def Supplies (query : KnvNode → KnvNode → Answer) (n s : KnvNode) (os : List KnvNode) : Prop :=
  n.found s ≠ [] ∧ List.Forall₂ (GivesAt (query s) n) (n.found s) os

/-- Every element of the second of two related lists has one of the first. -/
theorem forall₂_mem_right {α β : Type} {R : α → β → Prop} {as : List α} {bs : List β} (h : List.Forall₂ R as bs) :
    ∀ b ∈ bs, ∃ a ∈ as, R a b := by
  induction h with
  | nil => exact fun b hb => absurd hb List.not_mem_nil
  | cons hab _ ih =>
    intro b hb
    rcases List.mem_cons.mp hb with rfl | hb
    · exact ⟨_, List.mem_cons_self .., hab⟩
    · obtain ⟨a, ha, hab⟩ := ih b hb
      exact ⟨a, List.mem_cons_of_mem _ ha, hab⟩

theorem Supplies.ne_nil {query : KnvNode → KnvNode → Answer} {n s : KnvNode} {os : List KnvNode}
    (h : Supplies query n s os) : os ≠ [] := by
  rintro rfl
  exact h.1 (List.forall₂_nil_right_iff.mp h.2)

theorem Supplies.mem {query : KnvNode → KnvNode → Answer} {n s o : KnvNode} {os : List KnvNode}
    (h : Supplies query n s os) (ho : o ∈ os) : ∃ c ∈ n.childlist, Gives (query s) c o := by
  obtain ⟨a, -, c, hc, -, hgive⟩ := forall₂_mem_right h.2 o ho
  exact ⟨c, hc, hgive⟩

section Loops

variable {n : KnvNode} (req : KnvNode) (hnd : n.childAddrs.Nodup)

include hnd

end Loops

/-! ### Putting a request -/

section Query

variable {pool : ℕ → KnvNode} {fuel : ℕ} {rk pk : Bool} {c r n : KnvNode}

end Query

/-- Does a request carry the key of the node it is made of? -/
def Named (levels : ℕ) (c : KnvNode) : Prop :=
  c.key.bytes ≠ [] ∧ (c.carriesKey || (levels != 0 && !c.childlist.isEmpty)) = true

/-- A child that is not named has a tag of its own, at every node down to some levels, and what is asked for as a whole
is copied faithfully. -/
def Apart : ℕ → KnvNode → Prop
  | 0, n => Copyable n
  | levels + 1, n =>
    (n.childlist = [] → Copyable n) ∧
      (n.childlist ≠ [] → (∀ c ∈ n.childlist, ∀ d ∈ n.childlist, c.tag = d.tag → c ≠ d → Named levels c) ∧
        ∀ c ∈ n.childlist, Apart levels c)

/-- `o` has every child of `n`, and once, down to some levels. -/
def Answered : ℕ → KnvNode → KnvNode → Prop
  | 0, n, o => Echoed n o
  | levels + 1, n, o =>
    (n.childlist = [] → Echoed n o) ∧
      (n.childlist ≠ [] → o.tag = n.tag ∧ o.key.bytes = n.key.bytes ∧
        ∃ os, o.childlist.Perm os ∧ List.Forall₂ (Answered levels) n.childlist os)

theorem Answered.at' {levels : ℕ} {n o : KnvNode} (h : Answered levels n o) (a : ℕ) : Answered levels n (o.at' a) := by
  cases levels with
  | zero => exact Echoed.at' h a
  | succ levels => exact ⟨fun hcs => (h.1 hcs).at' a, h.2⟩

/-- Lists that are related elementwise through a third. -/
theorem forall₂_trans {α β γ : Type} {R : α → β → Prop} {S : β → γ → Prop} {T : α → γ → Prop} {as : List α} {bs : List β}
    {cs : List γ} (hRS : ∀ a b c, b ∈ bs → R a b → S b c → T a c) (h : List.Forall₂ R as bs) (h' : List.Forall₂ S bs cs) :
    List.Forall₂ T as cs := by
  induction h generalizing cs with
  | nil =>
    cases h'
    exact .nil
  | cons hab _ ih =>
    cases h' with
    | cons hbc h' =>
      exact .cons (hRS _ _ _ (List.mem_cons_self ..) hab hbc)
        (ih (fun a b c hb => hRS a b c (List.mem_cons_of_mem _ hb)) h')

section

variable {pool : ℕ → KnvNode} {maxLevel : ℤ} {n : KnvNode}

end

end KnvNode

end KnvProto
