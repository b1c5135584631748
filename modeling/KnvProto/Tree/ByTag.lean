import KnvProto.Tree.Identity

/-!
# Lookups by tag alone

`FindChildByTag` goes through the list of children if the flag `child_has_key` is set, and otherwise asks the index for
a child with the tag and without key. The two agree on what they find only where the index leads with the child that is
first in the list.

## The model

The list scan is the specification (`firstWithTag`): it is one of the two branches, so nothing else can depend on the
list alone. A bucket holds the newest child first, and the oldest first after the table has grown; the flag is set by an
insertion and by an expansion, and by no other function that gives a child a key.

What a lookup looks into is the node that `expandOp` leaves: expanded, if it is valid.
-/

namespace KnvProto.KnvNode

open PathEdit

/-- The first child in the list with a tag, by its address. -/
def firstWithTag (n : KnvNode) (t : UInt32) : Option ℕ := (n.childlist.find? fun c => c.tag = t).map (·.self)

/-- The bucket in which the index looks for a child with a tag and no key. -/
def tagChain (n : KnvNode) (t : UInt32) : List ℕ := n.ht.chain (getKeyhash t [] n.ht.sz)

/-- The index leads with a child under its tag: the child has no key, and nothing before it in its bucket has the tag
and no key. -/
structure Leads (n c : KnvNode) : Prop where
  /-- It is not filed under a key. -/
  key : c.key.bytes = []
  /-- It is in its bucket, before all others with the tag. -/
  chain : ∃ newer older, n.tagChain c.tag = newer ++ c.self :: older ∧ ∀ a ∈ newer, n.look a ≠ (c.tag, [])

/-- The index leads with the first child in the list that has the tag, or has nothing under it. -/
def IndexLeads (n : KnvNode) (t : UInt32) : Prop :=
  match n.childlist.find? fun c => c.tag = t with
  | some c => Leads n c
  | none => ∀ a ∈ n.tagChain t, n.look a ≠ (t, [])

/-- `FindChildByTag` finds what the list of children says: the first child with the tag, or nothing. -/
def FindsFirst (p : KnvNode) (t : UInt32) (pl : Place) : Prop :=
  (p.findChildByTag t pl).2 = (p.expandOp pl).node.firstWithTag t

variable {p n c : KnvNode} {t : UInt32} {pl : Place}

/-- What the index finds under a tag is the first child in the list exactly when the index leads with it. -/
theorem get_eq_firstWithTag_iff (hnd : n.childAddrs.Nodup) :
    n.ht.get n.look t [] = n.firstWithTag t ↔ n.IndexLeads t := by
  unfold firstWithTag IndexLeads KnvHt.get
  cases hfirst : n.childlist.find? fun c => c.tag = t with
  | none =>
    simp only [Option.map_none, List.find?_eq_none, decide_eq_true_eq]
    rfl
  | some c =>
    have hmem := List.mem_of_find?_eq_some hfirst
    have hmatch := List.find?_some (show List.find? _ _ = some c from hfirst)
    have htag : c.tag = t := of_decide_eq_true hmatch
    have hlook : n.look c.self = (t, c.key.bytes) := htag ▸ look_child hnd hmem
    simp only [Option.map_some, List.find?_eq_some_iff_append, hlook, decide_eq_true_eq, Prod.mk.injEq, true_and]
    constructor
    · rintro ⟨hkey, newer, older, hchain, hnewer⟩
      refine ⟨hkey, newer, older, htag ▸ hchain, fun a ha hlook => ?_⟩
      have hno := hnewer a ha
      rw [hlook, htag] at hno
      simp at hno
    · rintro ⟨hkey, newer, older, hchain, hnewer⟩
      refine ⟨hkey, newer, older, htag ▸ hchain, fun a ha => ?_⟩
      have hno := hnewer a ha
      rw [htag] at hno
      simp [hno]

/-- **When `FindChildByTag` finds the first child with the tag**: there are no children, or the flag is set, or the index
leads with that child. -/
theorem findsFirst_iff (hs : Shape p) (hl : Live p) (t : UInt32) (pl : Place) :
    FindsFirst p t pl ↔ (p.expandOp pl).node.childlist = [] ∨ (p.expandOp pl).node.childHasKey = true ∨
      (p.expandOp pl).node.IndexLeads t := by
  unfold FindsFirst findChildByTag expandOp expand
  by_cases hv : p.isValid = true
  · -- the node is looked into
    rw [if_neg (by simp [hv]), if_pos hv]
    have hexp := innerExpand_expanded pl.parentKeyed false p
    have hnd := (hs.innerExpand pl.parentKeyed false).nodup_children
    generalize p.innerExpand pl.parentKeyed false = q at hexp hnd
    simp only
    have hnum : q.childNum ≤ 0 ↔ q.childlist = [] := by
      rw [childNum, hexp, if_pos rfl, ← List.length_eq_zero_iff]
      omega
    by_cases hnil : q.childlist = []
    · simp [hnum.mpr hnil, firstWithTag, hnil]
    · rw [if_neg (mt hnum.mp hnil)]
      by_cases hflag : q.childHasKey = true
      · simp [hflag, firstWithTag]
      · rw [if_neg hflag, get_eq_firstWithTag_iff hnd]
        simp [hnil, hflag]
  · -- nothing is found in a node that is not valid, and it has no children
    rw [if_pos (by simpa using hv), if_neg hv]
    have hnil := hl.valid (by simpa using hv)
    simp [firstWithTag, hnil]

/-- A child without key leads where it is the only one without key that has its tag, and the index is right. -/
theorem leads_of_only (hix : Indexed n) (hs : Shape n) (hc : c ∈ n.childlist) (hkey : c.key.bytes = [])
    (honly : ∀ x ∈ n.childlist, x.tag = c.tag → x.key.bytes = [] → x = c) : Leads n c := by
  have hnd := hs.nodup_children
  have hbucket : KnvHt.bucketOf n.look n.ht.sz c.self = getKeyhash c.tag [] n.ht.sz := by
    rw [KnvHt.bucketOf, look_child hnd hc, hkey]
  have hmem : c.self ∈ n.tagChain c.tag :=
    hix.ht.chain.mem.mpr ⟨List.mem_map.mpr ⟨c, hc, rfl⟩, hbucket⟩
  obtain ⟨newer, older, hchain⟩ := List.append_of_mem hmem
  refine ⟨hkey, newer, older, hchain, fun a ha hlook => ?_⟩
  have hin : a ∈ n.tagChain c.tag := hchain ▸ List.mem_append_left _ ha
  obtain ⟨x, hx, rfl⟩ := List.mem_map.mp (hix.ht.chain.mem.mp hin).1
  rw [look_child hnd hx, Prod.mk.injEq] at hlook
  have hxc := honly x hx hlook.1 hlook.2
  subst hxc
  -- a bucket holds a child once
  have honce := hix.ht.chain.nodup hnd (getKeyhash x.tag [] n.ht.sz)
  rw [tagChain] at hchain
  rw [hchain] at honce
  exact (List.nodup_append.mp honce).2.2 _ ha _ (List.mem_cons_self ..) rfl

/-- **A tag without key that no two children share is found as the list says**, in every state of every run of intact
steps. -/
theorem findsFirst_of_single {root : KnvNode} (h : TreeRun Op.Intact root) :
    All (fun p => p.expanded = true → ∀ t pl,
      (∀ x ∈ p.childlist, ∀ y ∈ p.childlist, x.tag = t → y.tag = t → x = y ∧ x.key.bytes = []) →
      FindsFirst p t pl) root := by
  obtain ⟨hix, hs⟩ := ready_of_run h
  have hl := live_of_run h
  clear h
  induction root using induct with
  | h n hms hcs =>
    refine .mk (fun hexp t pl hsingle => ?_) (fun m hm => hms m hm (hix.metas m hm) (hs.metas m hm) (hl.metas m hm))
      fun c hc => hcs c hc (hix.children c hc) (hs.children c hc) (hl.children c hc)
    have hopen : (n.expandOp pl).node = n := by
      unfold expandOp expand
      by_cases hv : n.isValid = true
      · rw [if_pos hv, innerExpand_of_expanded hexp]
      · rw [if_neg hv]
    refine (findsFirst_iff hs.here hl.here t pl).mpr (.inr (.inr ?_))
    rw [hopen, IndexLeads]
    cases hfirst : n.childlist.find? fun c => c.tag = t with
    | some c =>
      have hmem := List.mem_of_find?_eq_some hfirst
      have hmatch := List.find?_some (show List.find? _ _ = some c from hfirst)
      have htag : c.tag = t := of_decide_eq_true hmatch
      refine leads_of_only hix.here hs.here hmem (hsingle c hmem c hmem htag htag).2 fun x hx hxt _ => ?_
      exact (hsingle x hx c hmem (hxt.trans htag) htag).1
    | none =>
      -- the index holds children only
      intro a ha hlook
      obtain ⟨x, hx, rfl⟩ := List.mem_map.mp (hix.here.ht.chain.mem.mp ha).1
      rw [look_child hs.here.nodup_children hx, Prod.mk.injEq] at hlook
      exact List.find?_eq_none.mp hfirst x hx (decide_eq_true hlook.1)

end KnvProto.KnvNode
