import KnvProto.Node.Request

/-!
# Deletions by a request

`DeleteSubTree` removes from a tree what a request asks for: a leaf of the request
asks for a node as a whole, by its tag and key or by its tag alone, and a node that
is left without children goes, too. What it has found something for is given back
as another request, `match_req_tree`.

## The model

A child tells its parent of a removal while the parent waits for it: the messages
are taken when the child is back in its place. `turns` is a record that the source
does not keep: for every leaf of the request and every node that it is put to, the
node before and after. The recursion is on fuel, as it is for `GetSubTree`.
-/

namespace KnvProto

/-- A step down a tree: to a child with a tag and a key. -/
abbrev Step := UInt32 × KnvKey

namespace KnvNode

/-- The step that leads to a node. -/
def step (n : KnvNode) : Step := (n.tag, n.key)

/-- `GetChildNum`, which expands the node. -/
def getChildNum (parentKeyed : Bool) (n : KnvNode) : KnvNode × ℕ :=
  let n := if n.isValid then n.innerExpand parentKeyed false else n
  (n, n.childNum.toNat)

/-- Does a request ask for a node as a whole? -/
def asksWhole (reqKeyed : Bool) (s : KnvNode) : Bool := (s.innerExpand reqKeyed false).childNum ≤ 0

end KnvNode

open KnvNode

/-- A leaf of a request is put to a node. -/
structure Turn where
  /-- The way to the parent of the leaf, from below the root of the request. -/
  way : List Step := []
  /-- The tag of the leaf. -/
  tag : UInt32
  /-- Its key. -/
  key : KnvKey
  /-- The node that it is put to, before its turn. -/
  before : KnvNode
  /-- The node after its turn. -/
  after : KnvNode

namespace Turn

/-- The way to the leaf, from below the root of the request. -/
def path (t : Turn) : List Step := t.way ++ [(t.tag, t.key)]

/-- The same turn, seen from one level above. -/
def under (s : Step) (t : Turn) : Turn := { t with way := s :: t.way }

/-- The child that a leaf with a key finds. -/
def found (t : Turn) : Option KnvNode :=
  (t.before.ht.get t.before.look t.tag t.key.bytes).bind fun a => t.before.childlist.find? fun c => c.self = a

/-- The node has what the leaf asks for: a child with its tag and, if it has one, its key. -/
def meets (t : Turn) : Bool :=
  if t.key.bytes = [] then t.before.childlist.any fun c => c.tag = t.tag
  else match t.found with
    | some c => c.key = t.key
    | none => false

/-- The leaf has no key, or it finds a child that has no children. -/
def bare (t : Turn) : Bool :=
  t.key.bytes = [] ||
    match t.found with
    | some c => (c.getChildNum (t.before.key.bytes != [])).2 = 0
    | none => false

/-- The children that are gone after the turn. -/
def removed (t : Turn) : List ℕ :=
  (t.before.childlist.map (·.self)).filter fun a => a ∉ t.after.childlist.map (·.self)

end Turn

/-- What `DeleteSubTree` leaves. -/
structure Deletion where
  /-- The node. -/
  node : KnvNode
  /-- What its parent is told. -/
  msgs : List Ev := []
  /-- `match_req_tree`. -/
  matched : Option KnvNode := none
  /-- The return code. -/
  ret : Except KnvErr ℕ := .ok 0
  /-- The turns of the leaves of the request below its root. -/
  turns : List Turn := []

namespace Deletion

/-- A loop that ends at the first failure. -/
def each {α : Type} (f : α → Deletion → Deletion) : List α → Deletion → Deletion
  | [], acc => acc
  | x :: xs, acc =>
    match (f x acc).ret with
    | .error _ => f x acc
    | .ok _ => each f xs (f x acc)

end Deletion

namespace KnvNode

/-- `match_req_tree`, which is made of the request when there is none. -/
def matchTree (req : KnvNode) (matched : Option KnvNode) : Except KnvErr KnvNode :=
  match matched with
  | some m => .ok m
  | none => newTree req.tag (some req.key)

/-- `match_req_tree` of a child goes below that of the node. -/
def addMatch (req : KnvNode) (matched sub : Option KnvNode) : Except KnvErr (Option KnvNode) :=
  match sub with
  | none => .ok matched
  | some c => (matchTree req matched).map fun m => some (innerInsertChild c true true true m).node

/-- The match for a request for the node as a whole. -/
def wholeMatch (req : KnvNode) : Option KnvNode :=
  if req.key.bytes ≠ [] then (newTree req.tag (some req.key)).toOption
  -- without a key, a number
  else (new req.tag .varint .string none (some { i64 := 1 })).toOption

/-- After the deletion in the child `c` returned `ret`: the child is removed if it was deleted as a whole, or if it has
no children. -/
def settle (pos : Option ℕ) (ret : ℕ) (c n : KnvNode) : Out :=
  if ret = 1 then n.removeChildByPos c.self pos
  else
    let (c, num) := c.getChildNum (n.key.bytes != [])
    let n := n.setChildNode c
    if num = 0 then n.removeChildByPos c.self pos else ⟨n, [], .ok 0⟩

/-- `DELETE_SUBDATA_SUB_TREE` in the child at an address, for the child `s` of a request, and what comes of the child:
`delete` is `DeleteSubTree` of a node under a parent with a key or without. -/
def deleteAt (delete : Bool → KnvNode → Deletion) (req s : KnvNode) (pos : Option ℕ) (a : ℕ) (acc : Deletion) : Deletion :=
  match acc.node.childlist.find? fun c => c.self = a with
  | none => acc
  | some c =>
    let r := delete (acc.node.key.bytes != []) c
    let (n, ups) := (acc.node.setChildNode r.node).handleAll a r.msgs
    match r.ret with
    | .error e => { node := n, msgs := acc.msgs ++ ups, ret := .error ⟨-4, e.errmsg⟩ }
    | .ok ret =>
      match addMatch req acc.matched r.matched with
      | .error _ => { node := n, msgs := acc.msgs ++ ups, ret := .error ⟨-5, "Out of memory"⟩ }
      | .ok matched =>
        let o := settle pos ret r.node n
        { node := o.node
          msgs := acc.msgs ++ ups ++ o.msgs
          matched := matched
          turns := acc.turns ++ r.turns.map (·.under s.step) ++
            if s.asksWhole (req.key.bytes != []) then [⟨[], s.tag, s.key, acc.node, o.node⟩] else [] }

/-- A leaf of a request without a key: all children with its tag go, if it is a node or a number other than 0. -/
def deleteByTag (pl : Place) (req s : KnvNode) (acc : Deletion) : Deletion :=
  if s.type = .string ∨ s.type = .varint ∧ s.val.i64 ≠ 0 then
    let o := acc.node.removeChildrenByTag s.tag pl
    match matchTree req acc.matched with
    | .error _ => { node := o.node, msgs := acc.msgs ++ o.msgs, ret := .error ⟨-5, "Out of memory"⟩ }
    | .ok m =>
      let i := innerInsertChild s false true true m
      match i.ret with
      | .error e => { node := o.node, msgs := acc.msgs ++ o.msgs, ret := .error ⟨-6, e.errmsg⟩ }
      | .ok _ =>
        { node := o.node
          msgs := acc.msgs ++ o.msgs
          matched := some i.node
          turns := acc.turns ++ [⟨[], s.tag, s.key, acc.node, o.node⟩] }
  else acc

/-- A turn of the loop over the children of a request. -/
def deleteChild (delete : KnvNode → Bool → KnvNode → Deletion) (pl : Place) (req s : KnvNode) (acc : Deletion) : Deletion :=
  -- with a key, one child
  if s.key.bytes ≠ [] then
    match acc.node.ht.get acc.node.look s.tag s.key.bytes with
    | none => acc
    | some a => deleteAt (delete s) req s (some (getKeyhash s.tag s.key.bytes acc.node.ht.sz)) a acc
  else if s.asksWhole (req.key.bytes != []) then deleteByTag pl req (s.innerExpand (req.key.bytes != []) false) acc
  else
    Deletion.each (deleteAt (delete s) req s none) ((acc.node.childlist.filter fun c => c.tag = s.tag).map (·.self)) acc

/-- `DeleteSubTree`, with fuel, for a request under a parent that has a key or not. -/
def deleteSubTreeFuel : ℕ → Bool → KnvNode → Bool → KnvNode → Deletion
  | 0, _, _, _, n => { node := n }
  | fuel + 1, reqKeyed, req, parentKeyed, n =>
    if req.tag = 0 then { node := n, ret := .error ⟨-1, "bad argument"⟩ }
    -- no same node; the request may be without a key
    else if n.tag ≠ req.tag ∨ (req.key.bytes ≠ [] ∧ n.key ≠ req.key) then { node := n }
    -- request the whole node
    else if req.asksWhole reqKeyed then { node := n, matched := wholeMatch req, ret := .ok 1 }
    else
      let req := req.innerExpand reqKeyed false
      let n := n.innerExpand parentKeyed (!req.childHasKey)
      -- this is a leaf, but the request is not
      if n.childNum ≤ 0 then { node := n }
      else
        let acc := Deletion.each (deleteChild (deleteSubTreeFuel fuel (req.key.bytes != [])) ⟨parentKeyed, false⟩ req)
          req.childlist { node := n }
        match acc.ret with
        | .error _ => acc
        | .ok _ =>
          let (n, num) := acc.node.getChildNum parentKeyed
          { acc with node := n, ret := .ok (if num = 0 then 1 else 0) }

/-- `DeleteSubTree`, by a root, of a node under a parent that has a key or not. -/
def deleteSubTree (req : KnvNode) (parentKeyed : Bool) (n : KnvNode) : Deletion :=
  deleteSubTreeFuel req.weight false req parentKeyed n

/-! ### What the loops can do -/

/-- The rule for a loop that did not fail: what every turn that did not fail keeps. -/
theorem each_rule {α : Type} {P : Deletion → Prop} {f : α → Deletion → Deletion} : ∀ {l : List α} {acc : Deletion},
    (∀ x ∈ l, ∀ acc, P acc → ∀ k, (f x acc).ret = .ok k → P (f x acc)) → P acc →
    ∀ {k : ℕ}, (Deletion.each f l acc).ret = .ok k → P (Deletion.each f l acc) := by
  intro l
  induction l with
  | nil => exact fun _ hacc _ _ => hacc
  | cons x l ih =>
    intro acc hf hacc k hret
    rw [Deletion.each] at hret ⊢
    cases hx : (f x acc).ret with
    | error e =>
      simp only [hx] at hret
      cases hret
    | ok r =>
      simp only [hx] at hret ⊢
      exact ih (fun y hy => hf y (List.mem_cons_of_mem _ hy)) (hf x (List.mem_cons_self ..) acc hacc r hx) hret

theorem addMatch_ok {req : KnvNode} {matched sub m' : Option KnvNode} (h : addMatch req matched sub = .ok m') :
    sub = none ∧ m' = matched ∨ ∃ c m, sub = some c ∧ matchTree req matched = .ok m ∧
      m' = some (innerInsertChild c true true true m).node := by
  cases sub with
  | none =>
    cases h
    exact .inl ⟨rfl, rfl⟩
  | some c =>
    rw [addMatch] at h
    cases hm : matchTree req matched with
    | error e =>
      rw [hm] at h
      cases h
    | ok m =>
      rw [hm] at h
      cases h
      exact .inr ⟨c, m, rfl, rfl, rfl⟩

/-- A removal by the tag that did not fail: the copy of the request is given back as a child that is given away. -/
theorem deleteByTag_ok {pl : Place} {req s : KnvNode} {k : ℕ} {acc : Deletion} (h : (deleteByTag pl req s acc).ret = .ok k) :
    deleteByTag pl req s acc = acc ∨ ∃ d m msgs, s.innerDuplicate false = .ok d ∧ matchTree req acc.matched = .ok m ∧
      deleteByTag pl req s acc =
        { node := (acc.node.removeChildrenByTag s.tag pl).node
          msgs := msgs
          matched := some (innerInsertChild d true true true m).node
          turns := acc.turns ++ [⟨[], s.tag, s.key, acc.node, (acc.node.removeChildrenByTag s.tag pl).node⟩] } := by
  unfold deleteByTag at h ⊢
  split at h
  · next hask =>
    rw [if_pos hask]
    simp only at h ⊢
    cases hm : matchTree req acc.matched with
    | error e =>
      simp only [hm] at h
      cases h
    | ok m =>
      simp only [hm] at h ⊢
      cases hd : s.innerDuplicate false with
      | error e =>
        have hfail : (innerInsertChild s false true true m).ret = .error ⟨-1, "Out of memory"⟩ := by
          simp [innerInsertChild, hd, fail]
        simp only [hfail] at h
        cases h
      | ok d =>
        have hins : innerInsertChild s false true true m = innerInsertChild d true true true m := by
          simp [innerInsertChild, hd]
        cases hi : (innerInsertChild s false true true m).ret with
        | error e =>
          simp only [hi] at h
          cases h
        | ok r =>
          exact .inr ⟨d, m, _, rfl, rfl, by rw [hins]⟩
  · next hask => exact .inl (if_neg hask)

/-- A deletion in a child that did not fail. -/
theorem deleteAt_ok {delete : Bool → KnvNode → Deletion} {req s : KnvNode} {pos : Option ℕ} {a k : ℕ} {acc : Deletion}
    (h : (deleteAt delete req s pos a acc).ret = .ok k) : deleteAt delete req s pos a acc = acc ∨
      ∃ c ret matched, (acc.node.childlist.find? fun c => c.self = a) = some c ∧
        (delete (acc.node.key.bytes != []) c).ret = .ok ret ∧
        addMatch req acc.matched (delete (acc.node.key.bytes != []) c).matched = .ok matched ∧
        ∃ n ups msgs, (n, ups) = (acc.node.setChildNode (delete (acc.node.key.bytes != []) c).node).handleAll a
            (delete (acc.node.key.bytes != []) c).msgs ∧
          deleteAt delete req s pos a acc =
            { node := (settle pos ret (delete (acc.node.key.bytes != []) c).node n).node
              msgs := msgs
              matched := matched
              turns := acc.turns ++ ((delete (acc.node.key.bytes != []) c).turns.map (·.under s.step) ++
                if s.asksWhole (req.key.bytes != []) then
                  [⟨[], s.tag, s.key, acc.node, (settle pos ret (delete (acc.node.key.bytes != []) c).node n).node⟩]
                else []) } := by
  unfold deleteAt at h ⊢
  cases hfind : acc.node.childlist.find? fun c => c.self = a with
  | none => exact .inl rfl
  | some c =>
    simp only [hfind] at h ⊢
    cases hdel : (delete (acc.node.key.bytes != []) c).ret with
    | error e =>
      simp only [hdel] at h
      cases h
    | ok ret =>
      simp only [hdel] at h ⊢
      cases hadd : addMatch req acc.matched (delete (acc.node.key.bytes != []) c).matched with
      | error e =>
        simp only [hadd] at h
        cases h
      | ok matched =>
        simp only [List.append_assoc]
        exact .inr ⟨c, ret, matched, rfl, hdel, hadd, _, _, _, rfl, rfl⟩

/-! ### Fuel -/

theorem each_congr {α : Type} {f g : α → Deletion → Deletion} : ∀ {l : List α}, (∀ x ∈ l, f x = g x) →
    ∀ acc, Deletion.each f l acc = Deletion.each g l acc := by
  intro l
  induction l with
  | nil => exact fun _ _ => rfl
  | cons x l ih =>
    intro h acc
    rw [Deletion.each, Deletion.each, h x (List.mem_cons_self ..)]
    split
    · rfl
    · exact ih (fun y hy => h y (List.mem_cons_of_mem _ hy)) _

/-- A turn of the loop goes on with its own child of the request. -/
theorem deleteChild_congr {delete delete' : KnvNode → Bool → KnvNode → Deletion} {pl : Place} {req s : KnvNode}
    (h : delete s = delete' s) : deleteChild delete pl req s = deleteChild delete' pl req s := by
  funext acc
  rw [deleteChild, deleteChild, h]

/-- **More fuel than the request weighs makes no difference.** -/
theorem deleteSubTreeFuel_eq : ∀ {fuel fuel' : ℕ} {reqKeyed : Bool} {req : KnvNode}, req.weight ≤ fuel → req.weight ≤ fuel' →
    deleteSubTreeFuel fuel reqKeyed req = deleteSubTreeFuel fuel' reqKeyed req := by
  intro fuel
  induction fuel with
  | zero => exact fun hle => absurd (weight_pos _) (Nat.not_lt.mpr hle)
  | succ fuel ih =>
    intro fuel' reqKeyed req hle hle'
    obtain ⟨fuel', rfl⟩ : ∃ k, fuel' = k + 1 :=
      ⟨fuel' - 1, (Nat.succ_pred_eq_of_pos (Nat.lt_of_lt_of_le (weight_pos _) hle')).symm⟩
    funext pk n
    have hloop : ∀ (k : Bool) (pl : Place), Deletion.each
      (deleteChild (deleteSubTreeFuel fuel k) pl (req.innerExpand reqKeyed false))
        (req.innerExpand reqKeyed false).childlist = Deletion.each (deleteChild (deleteSubTreeFuel fuel' k) pl
          (req.innerExpand reqKeyed false)) (req.innerExpand reqKeyed false).childlist := fun k pl =>
      funext (each_congr fun s hs =>
        deleteChild_congr (ih (Nat.le_of_lt_succ (Nat.lt_of_lt_of_le (weight_innerExpand hs) hle))
        (Nat.le_of_lt_succ (Nat.lt_of_lt_of_le (weight_innerExpand hs) hle'))))
    rw [deleteSubTreeFuel, deleteSubTreeFuel]
    simp only [hloop]

end KnvNode

end KnvProto
