import KnvProto.Library.Edits
import KnvProto.Node.Deletion
import KnvProto.Node.Fields

/-!
# Updates by a tree

`UpdateSubTree` puts the content of another tree into a node: metas are set, a child with
the same tag and key is updated in its turn, and any other child is inserted. The last
level is expanded without keys, and there the children replace all that have their tags.

## The model

`levels` counts the levels that are left, the last one being that of `max_level` 0: it is
0 when `max_level` is negative. `order` is the order in which the tags in the
`unordered_set` are gone through. What the update leaves expanded in the update tree is
left out, as it is for requests.
-/

namespace KnvProto

open PathEdit

namespace KnvNode

/-- A function that returns 0, or `ret` when what it calls fails. -/
def orFail (ret : ℤ) (o : Out) : Out := { o with ret := (o.ret.mapError fun e => ⟨ret, e.errmsg⟩).map fun _ => 0 }

/-- The value of the update tree becomes the value of the node. -/
def takeValue (n u : KnvNode) : Out :=
  match u.getValue.2 with
  | .error e => n.fail (-2) e.errmsg
  | .ok v => orFail (-3) (n.setValue u.type v)

/-- A meta of the update tree: the key is skipped. -/
def takeMeta (pl : Place) (m n : KnvNode) : Out :=
  if 1 < m.tag then orFail (-6) (n.setMetaInner m.tag m.type (some m.val) true pl) else ⟨n, [], .ok 0⟩

/-- At the last level, the children with a tag of the update tree are removed; nobody asks whether it worked. -/
def dropTag (pl : Place) (t : UInt32) (n : KnvNode) : Out := { n.removeChildrenByTag t pl with ret := .ok 0 }

/-- The child that a child of the update tree is for: none at the last level. -/
def matchOf (last : Bool) (n s : KnvNode) : Option ℕ := if last then none else n.ht.get n.look s.tag s.key.bytes

/-- A child of the update tree: `update` is `UpdateSubTree` of the child that it is for. -/
def takeChild (update : KnvNode → Place → KnvNode → Out) (last : Bool) (pl : Place) (s n : KnvNode) : Out :=
  match matchOf last n s with
  | some a =>
    match n.onChild a (update s) pl with
    | some o => orFail (-4) o
    | none => ⟨n, [], .ok 0⟩
  | none => orFail (-5) (innerInsertChild s false true true n)

/-- `UpdateSubTree` of an inner node by an inner node. -/
def takeContent (order : List UInt32 → List UInt32) (update : KnvNode → Place → KnvNode → Out) (last : Bool) (pl : Place)
    (u n : KnvNode) : Out :=
  ((Outcome.each 0 (takeMeta pl) u.metalist n).next
    (Outcome.each 0 (dropTag pl) (if last then order (u.childlist.map (·.tag)) else []))).next
    (Outcome.each 0 (takeChild update last pl) u.childlist)

/-- `UpdateSubTree` of the levels that are left, by a tree whose parent has a key or not. -/
def updateSubTreeLevels (order : List UInt32 → List UInt32) : ℕ → Bool → KnvNode → Place → KnvNode → Out
  | 0, _, u, _, n =>
    if u.tag = 0 then n.fail (-1) "bad argument"
    else if n.tag ≠ u.tag ∨ n.key ≠ u.key then ⟨n, [], .ok 0⟩
    else n.takeValue u
  | levels + 1, updKeyed, u, pl, n =>
    if u.tag = 0 then n.fail (-1) "bad argument"
    -- not same node
    else if n.tag ≠ u.tag ∨ n.key ≠ u.key then ⟨n, [], .ok 0⟩
    else
      let last := levels == 0
      let n := if last then n.innerExpand pl.parentKeyed true else n
      let u := (if last then u.innerExpand updKeyed true else u).getChildNum updKeyed
      -- the update tree is a leaf
      if u.2 = 0 then n.takeValue u.1
      else
        let n := n.getChildNum pl.parentKeyed
        -- this is a leaf
        if n.2 = 0 then n.1.takeValue u.1
        else takeContent order (updateSubTreeLevels order levels (u.1.key.bytes != [])) last pl u.1 n.1

/-- `UpdateSubTree(update_tree, max_level)`. -/
def updateSubTree (order : List UInt32 → List UInt32) (updKeyed : Bool) (u : KnvNode) (maxLevel : ℤ) (pl : Place)
    (n : KnvNode) : Out :=
  updateSubTreeLevels order (maxLevel + 1).toNat updKeyed u pl n

end KnvNode

end KnvProto
