import Mathlib.Data.List.Sort
import KnvProto.Node.HtOrder
import KnvProto.Tree.Duplicate
import KnvProto.Tree.Unread

/-!
# The order of what is given out

A child of a request that has no key is put to all children with its tag, and what
they give out is inserted at the tail of `out`, one after the other. With
`child_has_key` they are met as the list has them, and otherwise as the hash chain
of the tag leads.

## The model

`InnerGetSubTree` calls itself: a `Query` is one such call, and a `Round` of it is
the turn of one child of its request, with the children of the node that are asked
in it. `Query.Makes` has the calls that are made in answering one.

What is inserted into `out` is what the children of the rounds give out, in that
order (`gathered_answer`). `inOrder_iff` says when the children of one round come
in the order of the list: an index that has been filled in the order of the list,
as that of a node read from bytes has, has the latest first in its chains.
-/

namespace KnvProto

open KnvHt

/-- A call of `InnerGetSubTree`. -/
structure Query where
  /-- The fuel that is left. -/
  fuel : ℕ
  /-- Has the parent of the request a key? -/
  reqKeyed : Bool
  /-- Has the parent of the node a key? -/
  parentKeyed : Bool
  /-- The request. -/
  req : KnvNode
  /-- The node that is asked. -/
  node : KnvNode

/-- The turn of one child of a request in the loop of `InnerGetSubTree`. -/
structure Round where
  /-- The node, before it. -/
  node : KnvNode
  /-- The child of the request. -/
  req : KnvNode
  /-- The children of the node that it is put to, one after the other, each as it is then. -/
  asked : List KnvNode

namespace KnvNode

/-- The children at some addresses, as the loop over them asks them. -/
def asked (query : KnvNode → Answer) : List ℕ → KnvNode → List KnvNode
  | [], _ => []
  | a :: as, n =>
    match n.childlist.find? fun c => c.self = a with
    | none => asked query as n
    | some c => c :: asked query as (n.setChildNode (query c).node)

/-- The rounds of the loop over the children of a request. -/
def rounds (query : KnvNode → KnvNode → Answer) (noEmpty : Bool) (req : KnvNode) : List KnvNode → Answer → List Round
  | [], _ => []
  | s :: ss, acc =>
    let matched := acc.node.found s
    let round : Round := ⟨acc.node, s, asked (query s) matched acc.node⟩
    let acc := getMatches (query s) noEmpty req matched acc
    match acc.ret with
    | .error _ => [round]
    | .ok _ =>
      if matched.isEmpty && !noEmpty then
        let o := innerInsertChild s false false true (acc.empty.getD req.dupEmptyNode)
        match o.ret with
        | .error _ => [round]
        | .ok _ => round :: rounds query noEmpty req ss { acc with empty := some o.node }
      else round :: rounds query noEmpty req ss acc

end KnvNode

namespace Query

open KnvNode

variable (pool : ℕ → KnvNode) (noEmpty : Bool)

/-- What the call leaves. -/
def answer (q : Query) : Answer := innerGetSubTreeFuel pool noEmpty q.fuel q.reqKeyed q.parentKeyed q.req q.node

/-- The call that is made for a child of the request and a child of the node. -/
def below (q : Query) (s c : KnvNode) : Query := ⟨q.fuel - 1, q.req.key.bytes != [], q.node.key.bytes != [], s, c⟩

/-- The rounds of a call. -/
def rounds (q : Query) : List Round :=
  if q.fuel = 0 then []
  else if q.req.type ≠ .string ∧ q.req.val.i64 = 0 then []
  else
    let req := q.req.innerExpand q.reqKeyed false
    if req.childNum ≤ 0 then []
    else
      let n := q.node.innerExpand q.parentKeyed (!req.childHasKey)
      if n.childNum ≤ 0 then []
      else
        let acc := getMetas pool req.metalist { node := n }
        match acc.ret with
        | .error _ => []
        | .ok _ => KnvNode.rounds (fun s c => (q.below s c).answer pool noEmpty) noEmpty req req.childlist acc

/-- The calls that are made in answering a call. -/
inductive Makes (q : Query) : Query → Prop
  /-- The call itself. -/
  | self : Makes q q
  /-- The call for a child that is asked in a round. -/
  | child {q' : Query} {t : Round} {c : KnvNode} : Makes q q' → t ∈ q'.rounds pool noEmpty → c ∈ t.asked →
      Makes q (q'.below t.req c)

/-- What the children that are asked in a round give out. -/
def given (q : Query) (t : Round) : List KnvNode := t.asked.filterMap fun c => ((q.below t.req c).answer pool noEmpty).out

/-- The children that give something out in a round. -/
def copied (q : Query) (t : Round) : List ℕ :=
  (t.asked.filter fun c => ((q.below t.req c).answer pool noEmpty).out.isSome).map (·.self)

/-- The call of `GetSubTree`, of a root by a root. -/
def root (req n : KnvNode) : Query := ⟨req.weight, false, false, req, n⟩

end Query

namespace KnvNode

variable {pool : ℕ → KnvNode} {noEmpty : Bool}

/-- A result has what has been put into it, in that order, at its addresses. -/
def Gathered (out : Option KnvNode) (os : List KnvNode) : Prop :=
  (out = none ∧ os = []) ∨ ∃ o base, out = some o ∧ o.expanded = true ∧ o.slots = base + os.length ∧
    o.childlist = os.mapIdx fun i c => c.at' (base + i)

theorem gathered_nil : Gathered none [] := .inl ⟨rfl, rfl⟩

theorem addTo_eq {src c : KnvNode} {res : Option KnvNode} (hev : 0 ≤ c.evalSz) :
    addTo src res c = { (res.getD src.dupEmptyNode).linkChild c true with
      evalValSz := ((res.getD src.dupEmptyNode).linkChild c true).evalValSz + c.evalSz } := by
  simp only [addTo, innerInsertChild, if_true, Bool.not_false, Bool.true_or, evaluateSize_of_nonneg hev]

theorem Gathered.addTo {src c : KnvNode} {out : Option KnvNode} {os : List KnvNode} (h : Gathered out os)
    (hev : 0 ≤ c.evalSz) : Gathered (some (addTo src out c)) (os ++ [c]) := by
  rw [addTo_eq hev]
  rcases h with ⟨rfl, rfl⟩ | ⟨o, base, rfl, hexp, hslots, hlist⟩
  · exact .inr ⟨_, 0, rfl, rfl, rfl, rfl⟩
  · refine .inr ⟨_, base, rfl, hexp, ?_, ?_⟩
    · show o.slots + 1 = _
      rw [hslots, List.length_append, List.length_singleton, Nat.add_assoc]
    · show o.childlist ++ [c.at' o.slots] = _
      rw [List.mapIdx_concat, hlist, hslots]

theorem Gathered.closeUp {out : Option KnvNode} {os : List KnvNode} (h : Gathered out os) :
    Gathered (out.map closeUp) os := by
  rcases h with ⟨rfl, rfl⟩ | ⟨o, base, rfl, h⟩
  · exact gathered_nil
  · exact .inr ⟨_, base, rfl, h⟩

/-- A property holds of a node and of all that are below it among the children. -/
inductive Family (P : KnvNode → Prop) : KnvNode → Prop
  | mk {n : KnvNode} : P n → (∀ c ∈ n.childlist, Family P c) → Family P n

theorem Family.here {P : KnvNode → Prop} {n : KnvNode} : Family P n → P n
  | .mk h _ => h

theorem Family.children {P : KnvNode → Prop} {n : KnvNode} : Family P n → ∀ c ∈ n.childlist, Family P c
  | .mk _ h => h

/-- A query keeps the property: it holds of the nodes that an expansion makes and of the node expanded, and it does not see
which metas a node has, nor what the children are like apart from their faces. -/
structure Lasting (P : KnvNode → Prop) : Prop where
  made (f : PbField) (sz : ℕ) (k : Bool) (a : ℕ) : P ((ofField (f, sz) k).at' a)
  expand {n : KnvNode} (pk k : Bool) : P n → P (n.innerExpand pk k)
  metas {n : KnvNode} (m : KnvNode) : P n → P (n.setMetaNode m)
  child {n c c' : KnvNode} : P n → c ∈ n.childlist → face c' = face c → P (n.setChildNode c')

theorem face_innerExpand (n : KnvNode) (pk k : Bool) : face (n.innerExpand pk k) = face n := by
  have h := expandSame pk k n
  rw [face, face, h.self, h.tag, h.key]

namespace Lasting

variable {P : KnvNode → Prop} (hP : Lasting P) {n : KnvNode}

include hP

theorem innerExpand (h : Family P n) (pk k : Bool) : Family P (n.innerExpand pk k) := by
  refine .mk (hP.expand pk k h.here) ?_
  refine innerExpand_rule (P := fun n' => ∀ c ∈ n'.childlist, Family P c) (fun _ => h.children) fun n' _ hn' => ?_
  cases hn' with
  | leaf _ => exact fun c hc => absurd hc List.not_mem_nil
  | cut _ _ _ => exact fun c hc => absurd hc List.not_mem_nil
  | message _ _ _ =>
    intro c hc
    obtain ⟨p, -, b, rfl⟩ := mem_parsed (List.mem_filter.mp hc).1
    exact .mk (hP.made ..) fun c hc => absurd hc List.not_mem_nil

theorem setChildNode {c c' : KnvNode} (h : Family P n) (hc : c ∈ n.childlist) (hface : face c' = face c)
    (hc' : Family P c') : Family P (n.setChildNode c') := by
  refine .mk (hP.child h.here hc hface) fun x hx => ?_
  obtain ⟨y, hy, rfl⟩ := List.mem_map.mp hx
  split
  · exact hc'
  · exact h.children y hy

theorem getMetas : ∀ {ms : List KnvNode} {acc : Answer}, Family P acc.node →
    Family P (getMetas pool ms acc).node ∧ face (KnvNode.getMetas pool ms acc).node = face acc.node := by
  intro ms
  induction ms with
  | nil => exact fun h => ⟨h, rfl⟩
  | cons m ms ih =>
    intro acc h
    have hset : ∀ md, Family P (acc.node.setMetaNode md) := fun md => .mk (hP.metas md h.here) h.children
    rw [KnvNode.getMetas]
    split
    swap
    · exact ih h
    cases acc.node.metas m.tag with
    | none => exact ih h
    | some a =>
      simp only
      generalize ((acc.node.metalist.find? fun x => x.self = a).getD (pool a)).getValue = r
      obtain ⟨md, v⟩ := r
      cases v with
      | error e => exact ⟨hset md, rfl⟩
      | ok v => exact @ih { acc with node := acc.node.setMetaNode md, out := _ } (hset md)

/-- A query that keeps the property, and the face of the node. -/
def Keeps (P : KnvNode → Prop) (query : KnvNode → Answer) : Prop :=
  ∀ c, Family P c → Family P (query c).node ∧ face (query c).node = face c

theorem getMatches (noEmpty : Bool) (req : KnvNode) {query : KnvNode → Answer} (hquery : Keeps P query) :
    ∀ (as : List ℕ) {acc : Answer},
    Family P acc.node → (Family P (getMatches query noEmpty req as acc).node ∧
      face (KnvNode.getMatches query noEmpty req as acc).node = face acc.node) ∧
      ∀ c ∈ asked query as acc.node, Family P c := by
  intro as
  induction as with
  | nil => exact fun h => ⟨⟨h, rfl⟩, fun c hc => absurd hc List.not_mem_nil⟩
  | cons a as ih =>
    intro acc h
    rw [KnvNode.getMatches, asked]
    cases hfind : acc.node.childlist.find? fun c => c.self = a with
    | none => exact ih h
    | some c =>
      have hc := List.mem_of_find?_eq_some hfind
      obtain ⟨hnode, hface⟩ := hquery c (h.children c hc)
      have hset := hP.setChildNode h hc hface hnode
      have hasked : ∀ x ∈ asked query as (acc.node.setChildNode (query c).node), Family P x :=
        (@ih { acc with node := acc.node.setChildNode (query c).node } hset).2
      have hall : ∀ x ∈ c :: asked query as (acc.node.setChildNode (query c).node), Family P x :=
        List.forall_mem_cons.mpr ⟨h.children c hc, hasked⟩
      simp only
      cases (query c).ret with
      | error e => exact ⟨⟨hset, rfl⟩, hall⟩
      | ok _ => exact ⟨(@ih { acc with node := _, out := _, empty := _ } hset).1, hall⟩

/-- What holds of a round. -/
def Good (P : KnvNode → Prop) (t : Round) : Prop := Family P t.node ∧ ∀ c ∈ t.asked, Family P c

theorem getChildren (noEmpty : Bool) (req : KnvNode) {query : KnvNode → KnvNode → Answer}
    (hquery : ∀ s, Keeps P (query s)) : ∀ (ss : List KnvNode) {acc : Answer}, Family P acc.node →
      (Family P (getChildren query noEmpty req ss acc).node ∧
      face (KnvNode.getChildren query noEmpty req ss acc).node = face acc.node) ∧
      ∀ t ∈ rounds query noEmpty req ss acc, Good P t := by
  intro ss
  induction ss with
  | nil => exact fun h => ⟨⟨h, rfl⟩, fun t ht => absurd ht List.not_mem_nil⟩
  | cons s ss ih =>
    intro acc h
    obtain ⟨⟨hnode, hface⟩, hasked⟩ := hP.getMatches noEmpty req (hquery s) (acc.node.found s) h
    have hround : Good P ⟨acc.node, s, asked (query s) (acc.node.found s) acc.node⟩ := ⟨h, hasked⟩
    rw [KnvNode.getChildren, rounds]
    simp only
    generalize KnvNode.getMatches (query s) noEmpty req (acc.node.found s) acc = R at *
    cases R.ret with
    | error e => exact ⟨⟨hnode, hface⟩, List.forall_mem_singleton.mpr hround⟩
    | ok _ =>
      simp only
      split
      · cases (innerInsertChild s false false true (R.empty.getD req.dupEmptyNode)).ret with
        | error e => exact ⟨⟨hnode, hface⟩, List.forall_mem_singleton.mpr hround⟩
        | ok _ =>
          obtain ⟨⟨hnode', hface'⟩, hrest⟩ := @ih ⟨R.node, R.out, some _, .ok _⟩ hnode
          exact ⟨⟨hnode', hface'.trans hface⟩, List.forall_mem_cons.mpr ⟨hround, hrest⟩⟩
      · obtain ⟨⟨hnode', hface'⟩, hrest⟩ := ih hnode
        exact ⟨⟨hnode', hface'.trans hface⟩, List.forall_mem_cons.mpr ⟨hround, hrest⟩⟩

/-- **What a call leaves** of a node, and what its rounds meet. -/
theorem answer : ∀ (q : Query), Family P q.node → (Family P (q.answer pool noEmpty).node ∧
    face (q.answer pool noEmpty).node = face q.node) ∧ ∀ t ∈ q.rounds pool noEmpty, Good P t := by
  rintro ⟨fuel, rk, pk, req, n⟩
  induction fuel generalizing rk pk req n with
  | zero => exact fun h => ⟨⟨h, rfl⟩, fun t ht => by rw [Query.rounds, if_pos rfl] at ht; cases ht⟩
  | succ fuel ih =>
    intro h
    have hreqKey := (expandSame rk false req).key
    have hkey := fun k => (expandSame pk k n).key
    have hexpand := fun k => hP.innerExpand h pk k
    have hface := fun k => face_innerExpand n pk k
    have hstay : (Family P n ∧ face n = face n) ∧ ∀ t ∈ ([] : List Round), Good P t :=
      ⟨⟨h, rfl⟩, fun t ht => absurd ht List.not_mem_nil⟩
    simp only [Query.answer, Query.rounds, Query.below] at ih ⊢
    rw [if_neg (Nat.succ_ne_zero fuel), innerGetSubTreeFuel]
    split
    · exact hstay
    simp only
    rw [hreqKey, hkey]
    generalize req.innerExpand rk false = R
    replace hexpand := hexpand (!R.childHasKey)
    replace hface := hface (!R.childHasKey)
    generalize n.innerExpand pk (!R.childHasKey) = N at *
    have hopen : (Family P N ∧ face N = face n) ∧ ∀ t ∈ ([] : List Round), Good P t :=
      ⟨⟨hexpand, hface⟩, fun t ht => absurd ht List.not_mem_nil⟩
    split
    · cases n.dupWithKey <;> exact hstay
    split
    · split
      · exact hopen
      · cases R.dupWithKey <;> exact hopen
    · have hmetas := @getMetas pool P hP R.metalist { node := N } hexpand
      generalize KnvNode.getMetas pool R.metalist { node := N } = acc at *
      cases acc.ret with
      | error e => exact ⟨⟨hmetas.1, hmetas.2.trans hface⟩, fun t ht => absurd ht List.not_mem_nil⟩
      | ok _ =>
        simp only [Nat.add_sub_cancel]
        have hchildren := hP.getChildren noEmpty R
          (fun s c hc => (ih (req.key.bytes != []) (n.key.bytes != []) s c hc).1) R.childlist hmetas.1
        generalize KnvNode.getChildren _ noEmpty R R.childlist acc = fin at *
        obtain ⟨⟨hnode, hfin⟩, hrounds⟩ := hchildren
        cases fin.ret with
        | error e => exact ⟨⟨hnode, hfin.trans (hmetas.2.trans hface)⟩, hrounds⟩
        | ok _ => exact ⟨⟨hnode, hfin.trans (hmetas.2.trans hface)⟩, hrounds⟩

/-- The property holds of all nodes that are met in answering a call. -/
theorem makes {q q' : Query} (h : Family P q.node) (hmakes : q.Makes pool noEmpty q') :
    Family P q'.node ∧ ∀ t ∈ q'.rounds pool noEmpty, Good P t := by
  have hnode : Family P q'.node := by
    induction hmakes with
    | self => exact h
    | child _ ht hc ih => exact ((hP.answer _ ih).2 _ ht).2 _ hc
  exact ⟨hnode, (hP.answer q' hnode).2⟩

end Lasting

/-! ### The list and the index -/

/-- The index has been filled in the order of the list. -/
def FilledInOrder (n : KnvNode) : Prop := n.ht = fill n.look n.childAddrs

/-- What holds of the list of every node. -/
structure Listed (n : KnvNode) : Prop where
  /-- `child_num < 0` means that there are no children. -/
  folded : n.expanded = false → n.childlist = []
  /-- No two are at one address. -/
  nodup : n.childAddrs.Nodup

/-- What holds of a node that has been read from bytes. -/
structure Sown (n : KnvNode) : Prop where
  /-- Nothing has been put into the index before an expansion. -/
  folded : n.expanded = false → n.childlist = [] ∧ n.ht = {}
  nodup : n.childAddrs.Nodup
  filled : n.childlist ≠ [] → FilledInOrder n

theorem childAddrs_setChildNode {n c c' : KnvNode} (hnd : n.childAddrs.Nodup) (hc : c ∈ n.childlist)
    (hface : face c' = face c) : (n.setChildNode c').childlist.map face = n.childlist.map face ∧
      (n.setChildNode c').childAddrs = n.childAddrs := by
  have hfaces := map_face_replace hnd hc hface
  refine ⟨hfaces, ?_⟩
  have hself : ∀ x : KnvNode, x.childAddrs = (x.childlist.map face).map Prod.fst := fun x => by
    rw [List.map_map]
    rfl
  rw [hself, hself]
  exact congrArg (List.map Prod.fst) hfaces

theorem nodup_childAddrs_innerExpand {n : KnvNode} (h : n.childAddrs.Nodup) (pk k : Bool) :
    (n.innerExpand pk k).childAddrs.Nodup := by
  refine innerExpand_rule (P := fun n' => n'.childAddrs.Nodup) (fun _ => h) fun n' _ hn' => ?_
  cases hn' with
  | leaf _ => exact List.nodup_nil
  | cut _ _ _ => exact List.nodup_nil
  | message _ _ _ =>
    have hall : ((parsed k n.slots (pbScan n.val.str).1).map (·.self)).Nodup := by
      rw [map_self_parsed]
      exact List.nodup_range'
    exact hall.sublist (List.filter_sublist.map _)

theorem lasting_listed : Lasting Listed where
  made _ _ _ _ := ⟨fun _ => rfl, List.nodup_nil⟩
  expand pk k h := by
    refine ⟨fun hf => ?_, nodup_childAddrs_innerExpand h.nodup pk k⟩
    rw [innerExpand_expanded] at hf
    cases hf
  metas _ h := ⟨h.folded, h.nodup⟩
  child h hc hface := by
    refine ⟨fun hf => ?_, (childAddrs_setChildNode h.nodup hc hface).2 ▸ h.nodup⟩
    rw [h.folded hf] at hc
    exact absurd hc List.not_mem_nil

/-- What holds while a scan adds nodes. -/
structure Sowing (n : KnvNode) : Prop where
  nodup : n.childAddrs.Nodup
  old : ∀ a ∈ n.childAddrs, a < n.slots
  filled : FilledInOrder n

theorem Sowing.expandField {n : KnvNode} (h : Sowing n) (k : Bool) (p : PbField × ℕ) : Sowing (expandField k n p) := by
  unfold KnvNode.expandField
  split
  · refine ⟨h.nodup, fun a ha => Nat.lt_succ_of_lt (h.old a ha), ?_⟩
    exact h.filled.trans (fill_congr (look_congr rfl))
  · set c := (ofField p k).at' n.slots with hc
    have hnew : c.self ∉ n.childAddrs := fun hmem => Nat.lt_irrefl _ (h.old _ hmem)
    have haddrs : (n.childlist ++ [c]).map (·.self) = n.childAddrs ++ [c.self] := List.map_append
    have hnd : ((n.childlist ++ [c]).map (·.self)).Nodup := by
      rw [haddrs]
      exact List.nodup_append.mpr ⟨h.nodup, List.nodup_singleton _, fun a ha b hb hab => by
        rw [List.mem_singleton.mp hb] at hab
        exact hnew (hab ▸ ha)⟩
    refine ⟨hnd, fun a ha => ?_, ?_⟩
    · have ha : a ∈ (n.childlist ++ [c]).map (·.self) := ha
      rw [haddrs] at ha
      rcases List.mem_append.mp ha with ha | ha
      · exact Nat.lt_succ_of_lt (h.old a ha)
      · rw [List.mem_singleton.mp ha]
        exact Nat.lt_succ_self _
    · set n' : KnvNode := { n with childlist := n.childlist ++ [c], childHasKey := _, slots := n.slots + 1 } with hn'
      have hsame : ∀ a ∈ n.childAddrs, n.look a = n'.look a := by
        intro a ha
        obtain ⟨x, hx, rfl⟩ := List.mem_map.mp ha
        rw [look_child h.nodup hx, look_child (n := n') hnd (List.mem_append_left _ hx)]
      show n.ht.put n'.look c.self = fill n'.look ((n.childlist ++ [c]).map (·.self))
      rw [haddrs, fill_concat, ← fill_congr hsame, ← h.filled]

theorem Sowing.foldl {n : KnvNode} (h : Sowing n) (k : Bool) (fs : List (PbField × ℕ)) :
    Sowing (fs.foldl (KnvNode.expandField k) n) := by
  induction fs generalizing n with
  | nil => exact h
  | cons p fs ih => exact ih (h.expandField k p)

/-- **A scan fills the index in the order of the list.** -/
theorem Sown.innerExpand {n : KnvNode} (h : Sown n) (pk k : Bool) : Sown (n.innerExpand pk k) := by
  cases hexp : n.expanded with
  | true =>
    rw [innerExpand_of_expanded hexp]
    exact h
  | false =>
    obtain ⟨hcs, hht⟩ := h.folded hexp
    refine ⟨fun hf => ?_, nodup_childAddrs_innerExpand h.nodup pk k, ?_⟩
    · rw [innerExpand_expanded] at hf
      cases hf
    · set n₀ : KnvNode := { n with expanded := true, metalist := [], childlist := [], childHasKey := false } with hn₀
      have hsow : Sowing ((pbScan n.val.str).1.foldl (KnvNode.expandField k) n₀) :=
        @Sowing.foldl n₀ ⟨List.nodup_nil, fun a ha => absurd ha List.not_mem_nil, hht⟩ k _
      rw [KnvNode.innerExpand, if_neg (by simp [hexp])]
      simp only
      split
      · exact fun hne => absurd rfl hne
      split
      · exact fun hne => absurd rfl hne
      split
      · exact fun hne => absurd rfl hne
      split
      · exact fun _ => hsow.filled
      · exact fun hne => absurd rfl hne

theorem lasting_sown : Lasting Sown where
  made _ _ _ _ := ⟨fun _ => ⟨rfl, rfl⟩, List.nodup_nil, fun hne => absurd rfl hne⟩
  expand pk k h := h.innerExpand pk k
  metas _ h := ⟨h.folded, h.nodup, fun hne => (h.filled hne).trans (fill_congr (look_congr rfl))⟩
  child {n c c'} h hc hface := by
    obtain ⟨hfaces, haddrs⟩ := childAddrs_setChildNode h.nodup hc hface
    refine ⟨fun hf => ?_, haddrs ▸ h.nodup, fun _ => ?_⟩
    · rw [(h.folded hf).1] at hc
      exact absurd hc List.not_mem_nil
    · show n.ht = _
      rw [h.filled (List.ne_nil_of_mem hc), haddrs, look_of_faces hfaces rfl]

/-- A data tree: of any run, and asked any number of times. -/
inductive DataTree : KnvNode → Prop
  /-- A tree that has been read or built, and edited. -/
  | run {n : KnvNode} : TreeRun (fun _ _ _ _ => True) n → DataTree n
  /-- What a query leaves of it. -/
  | asked {n : KnvNode} (pool : ℕ → KnvNode) (noEmpty : Bool) (req : KnvNode) : DataTree n →
      DataTree (getSubTree pool noEmpty req n).node

/-- A query keeps what lasts. -/
theorem Lasting.getSubTree {P : KnvNode → Prop} (hP : Lasting P) {n : KnvNode} (h : Family P n) (req : KnvNode) :
    Family P (getSubTree pool noEmpty req n).node := by
  unfold KnvNode.getSubTree
  split
  · exact h
  split
  · exact h
  · exact (hP.answer (Query.root req n) h).1.1

theorem DataTree.listed {n : KnvNode} (h : DataTree n) : Family Listed n := by
  induction h with
  | run hrun =>
    have hall : ∀ {n : KnvNode}, Shaped n → Family Listed n := fun {n} hs => by
      induction hs with
      | mk hn _ _ _ ih => exact .mk ⟨fun hf => (hn.folded hf).2, hn.nodup_children⟩ ih
    exact hall (shaped_of_run hrun)
  | asked pool noEmpty req _ ih => exact lasting_listed.getSubTree ih req

/-! ### The order of a round -/

/-- Only children of the node are asked, in the order in which they are met. -/
theorem map_self_asked {query : KnvNode → Answer} : ∀ (as : List ℕ) (n : KnvNode),
    ((asked query as n).map (·.self)).Sublist as := by
  intro as
  induction as with
  | nil => exact fun _ => List.Sublist.refl _
  | cons a as ih =>
    intro n
    rw [asked]
    cases hfind : n.childlist.find? fun c => c.self = a with
    | none => exact (ih n).cons a
    | some c =>
      have hself : c.self = a := of_decide_eq_true (List.find?_some (p := fun c : KnvNode => c.self = a) hfind)
      simp only [List.map_cons, hself]
      exact (ih _).cons_cons a

/-- What is asked are children of the node. -/
theorem self_mem_of_asked {query : KnvNode → Answer} (hquery : Lasting.Keeps Listed query) : ∀ (as : List ℕ) {n c : KnvNode},
    Family Listed n → c ∈ asked query as n → c.self ∈ n.childAddrs := by
  intro as
  induction as with
  | nil => exact fun _ h => absurd h List.not_mem_nil
  | cons a as ih =>
    intro n x h
    rw [asked]
    cases hfind : n.childlist.find? fun c => c.self = a with
    | none => exact ih h
    | some c =>
      have hc := List.mem_of_find?_eq_some hfind
      obtain ⟨hnode, hface⟩ := hquery c (h.children c hc)
      have haddrs := (childAddrs_setChildNode h.here.nodup hc hface).2
      intro hx
      rcases List.mem_cons.mp hx with rfl | hx
      · exact List.mem_map.mpr ⟨x, hc, rfl⟩
      · exact haddrs ▸ ih (lasting_listed.setChildNode h hc hface hnode) hx

/-- A round is that of a child of the request, and asks the children that it finds. -/
theorem of_mem_rounds {query : KnvNode → KnvNode → Answer} {req : KnvNode} {t : Round} :
    ∀ {ss : List KnvNode} {acc : Answer}, t ∈ rounds query noEmpty req ss acc →
      t.req ∈ ss ∧ t.asked = asked (query t.req) (t.node.found t.req) t.node := by
  intro ss
  induction ss with
  | nil => exact fun h => absurd h List.not_mem_nil
  | cons s ss ih =>
    intro acc
    have hhere : t = ⟨acc.node, s, asked (query s) (acc.node.found s) acc.node⟩ →
        t.req ∈ s :: ss ∧ t.asked = asked (query t.req) (t.node.found t.req) t.node := by
      rintro rfl
      exact ⟨List.mem_cons_self .., rfl⟩
    have hlater : ∀ {acc : Answer}, t ∈ rounds query noEmpty req ss acc →
        t.req ∈ s :: ss ∧ t.asked = asked (query t.req) (t.node.found t.req) t.node :=
      fun h => ⟨List.mem_cons_of_mem _ (ih h).1, (ih h).2⟩
    rw [rounds]
    simp only
    split
    · exact fun h => hhere (List.mem_singleton.mp h)
    · split
      · split
        · exact fun h => hhere (List.mem_singleton.mp h)
        · exact fun h => (List.mem_cons.mp h).elim hhere hlater
      · exact fun h => (List.mem_cons.mp h).elim hhere hlater

theorem of_round {q : Query} {t : Round} (ht : t ∈ q.rounds pool noEmpty) :
    t.req ∈ (q.req.innerExpand q.reqKeyed false).childlist ∧
      t.asked = asked (fun c => (q.below t.req c).answer pool noEmpty) (t.node.found t.req) t.node := by
  unfold Query.rounds at ht
  split at ht
  · cases ht
  split at ht
  · cases ht
  simp only at ht
  split at ht
  · cases ht
  split at ht
  · cases ht
  split at ht
  · cases ht
  · exact of_mem_rounds ht

/-- What is copied in a round is among what the request finds, in that order. -/
theorem copied_sublist {q : Query} {t : Round} (ht : t ∈ q.rounds pool noEmpty) :
    (q.copied pool noEmpty t).Sublist (t.node.found t.req) := by
  refine (List.filter_sublist.map _).trans ?_
  rw [(of_round ht).2]
  exact map_self_asked ..

theorem mem_of_copied {q : Query} {t : Round} (ht : t ∈ q.rounds pool noEmpty) (h : Family Listed t.node) {a : ℕ}
    (ha : a ∈ q.copied pool noEmpty t) : a ∈ t.node.childAddrs := by
  obtain ⟨c, hc, rfl⟩ := List.mem_map.mp ha
  have hc := (List.mem_filter.mp hc).1
  rw [(of_round ht).2] at hc
  exact self_mem_of_asked (fun c hc => (lasting_listed.answer (q.below t.req c) hc).1) _ h hc

/-- Elements of a list in which any two come in its order. -/
theorem sublist_iff_pairwise {xs as : List ℕ} (hnd : as.Nodup) (hsub : ∀ a ∈ xs, a ∈ as) :
    xs.Sublist as ↔ xs.Pairwise fun a b => [a, b].Sublist as := by
  refine ⟨fun h => List.pairwise_iff_forall_sublist.mpr fun hab => hab.trans h, fun h => ?_⟩
  have hall : as.Pairwise fun a b => [a, b].Sublist as := List.pairwise_iff_forall_sublist.mpr id
  have hirrefl : Std.Irrefl fun a b => [a, b].Sublist as := ⟨fun a haa => by simpa using hnd.sublist haa⟩
  have hanti : Std.Antisymm fun a b => [a, b].Sublist as := ⟨fun a b hab hba => by
    have heq := eq_filter_of_sublist hnd hab
    rw [show (fun x => decide (x ∈ [a, b])) = fun x => decide (x ∈ [b, a]) by simp [or_comm],
      ← eq_filter_of_sublist hnd hba] at heq
    exact (List.cons.inj heq).1⟩
  exact List.sublist_of_subperm_of_pairwise (List.subperm_of_subset h.nodup hsub) h hall

/-- The children that are copied in a round are met in the order of the list: it is the list that is walked; or the index
has been filled in its order, and none of them are turned around in it; or it has been filled otherwise, and any two come
in the order of the list all the same. -/
def Lined (n : KnvNode) (copied : List ℕ) : Prop :=
  n.childHasKey = true ∨ FilledInOrder n ∧ InTurn (fun a => decide (a ∈ copied)) n.childAddrs ∨
    ¬FilledInOrder n ∧ copied.Pairwise fun a b => [a, b].Sublist n.childAddrs

/-- **When a round keeps the order.** -/
theorem sublist_iff_lined {q : Query} {t : Round} (ht : t ∈ q.rounds pool noEmpty) (hkey : t.req.key.bytes = [])
    (h : Family Listed t.node) :
    (q.copied pool noEmpty t).Sublist t.node.childAddrs ↔ Lined t.node (q.copied pool noEmpty t) := by
  have hfound := copied_sublist ht
  have hnd := h.here.nodup
  have hlist : (t.node.inList t.req.tag).Sublist t.node.childAddrs := List.filter_sublist.map _
  rw [found_eq, if_neg (not_not.mpr hkey)] at hfound
  unfold Lined
  by_cases hflag : t.node.childHasKey = true
  · rw [hflag, Bool.not_true, if_neg Bool.false_ne_true] at hfound
    exact ⟨fun _ => .inl hflag, fun _ => hfound.trans hlist⟩
  · rw [Bool.not_eq_true] at hflag
    rw [hflag, Bool.not_false, if_pos rfl] at hfound
    have hchain : (t.node.inIndex t.req.tag).Sublist
        (t.node.ht.chain (getKeyhash t.req.tag [] t.node.ht.sz)) :=
      List.filter_sublist.trans (List.dropWhile_sublist _)
    by_cases hfill : FilledInOrder t.node
    · have harranged : (q.copied pool noEmpty t).Sublist (arranged t.node.childAddrs) := by
        refine (hfound.trans hchain).trans ?_
        rw [hfill]
        exact (filled_fill t.node.look t.node.childAddrs).chain _
      rw [sublist_iff_inTurn hnd harranged]
      simp [hfill, hflag]
    · rw [sublist_iff_pairwise hnd fun a ha => mem_of_copied ht h ha]
      simp [hfill, hflag]

/-- **Of a tree read from bytes, the order is kept** where the list is walked, or the index has none turned around. -/
theorem inOrder_bytes_iff {bs : Bytes} {req n : KnvNode} (hn : newFromBytes bs = .ok n) {q : Query}
    (hq : (Query.root req n).Makes pool noEmpty q) {t : Round} (ht : t ∈ q.rounds pool noEmpty)
      (hkey : t.req.key.bytes = []) :
    (q.copied pool noEmpty t).Sublist t.node.childAddrs ↔ t.node.childHasKey = true ∨
      InTurn (fun a => decide (a ∈ q.copied pool noEmpty t)) t.node.childAddrs := by
  have hdata : DataTree n := .run (.newFromBytes hn)
  have hlisted := ((lasting_listed.makes (q := Query.root req n) hdata.listed hq).2 t ht).1
  have hsown : Sown t.node := by
    obtain ⟨f, sz, a, rfl⟩ := made_newFromBytes hn
    have hfamily : Family Sown ((ofField (f, sz) false).at' a) :=
      .mk (lasting_sown.made ..) fun c hc => absurd hc List.not_mem_nil
    exact ((lasting_sown.makes (q := Query.root req _) hfamily hq).2 t ht).1.here
  by_cases hcs : t.node.childlist = []
  · -- nothing can be copied
    have hnone : q.copied pool noEmpty t = [] := by
      refine List.eq_nil_iff_forall_not_mem.mpr fun a ha => ?_
      have hmem := mem_of_copied ht hlisted ha
      rw [childAddrs, hcs] at hmem
      exact List.not_mem_nil hmem
    have hturn : InTurn (fun a => decide (a ∈ q.copied pool noEmpty t)) t.node.childAddrs := by
      refine .inl ?_
      rw [childAddrs, hcs]
      exact Nat.zero_le _
    exact ⟨fun _ => .inr hturn, fun _ => hnone ▸ List.nil_sublist _⟩
  · rw [sublist_iff_lined ht hkey hlisted, Lined]
    simp [hsown.filled hcs]

end KnvNode

end KnvProto
