import KnvProto.Node.SubTree
import KnvProto.Tree.Duplicate

/-!
# What `Compare` decides

`Compare` is to return nothing when all of a tree is in another, and the tree of
what is missing or different otherwise. A tree to return is lost where it is made,
and the values of leaves are not looked at, so that the answer is right where all
of the tree is in the other, or the keys of the roots are different
(`compareDecides_iff`).
-/

namespace KnvProto.KnvNode

/-! ### What is to be decided -/

/-- A property of a node and of every node that can be found below it. -/
inductive Throughout (P : KnvNode → Prop) : KnvNode → Prop
  | mk {n : KnvNode} : P n → (∀ c ∈ n.children, Throughout P c) → Throughout P n

theorem Throughout.here {P : KnvNode → Prop} {n : KnvNode} : Throughout P n → P n
  | mk h _ => h

theorem Throughout.children {P : KnvNode → Prop} {n : KnvNode} : Throughout P n → ∀ c ∈ n.children, Throughout P c
  | mk _ h => h

/-- The value of a node, as the plain encoder writes it. -/
def content (n : KnvNode) : PbVal := if n.type = .string then { str := n.plainVal } else { i64 := n.val.i64 }

/-- All of a tree is in another: the keys are the same, every child has a counterpart of the same tag that it
is in, and a leaf has the same value. -/
inductive Included : KnvNode → KnvNode → Prop
  | mk {n m : KnvNode} (counterpart : KnvNode → KnvNode) : n.key = m.key →
      (∀ c ∈ n.children, counterpart c ∈ m.children ∧ (counterpart c).tag = c.tag) →
      (∀ c ∈ n.children, Included c (counterpart c)) →
      (n.children = [] → n.type = m.type ∧ n.content = m.content) → Included n m

/-- Two nodes are written as the same bytes. -/
def WrittenAlike (n m : KnvNode) : Prop := ∃ out, n.serializeStr = .ok out ∧ m.serializeStr = .ok out

mutual

/-- A tree of exactly what is missing or different: the whole tree where the keys are different, or the value of a
leaf; otherwise a node with the same tag and key, and below it what is missing or different of each child. -/
inductive Difference : KnvNode → KnvNode → KnvNode → Prop
  | key {n m t : KnvNode} : n.key ≠ m.key → WrittenAlike t n → Difference n m t
  | leaf {n m t : KnvNode} : n.key = m.key → n.children = [] → WrittenAlike t n → Difference n m t
  | inside {n m t : KnvNode} : n.key = m.key → n.children ≠ [] → t.tag = n.tag → t.key = n.key →
      Differences m n.children t.children → Difference n m t

/-- What is missing or different of children. -/
inductive Differences : KnvNode → List KnvNode → List KnvNode → Prop
  | nil {m : KnvNode} : Differences m [] []
  | missing {m c t : KnvNode} {cs ts : List KnvNode} : (∀ d ∈ m.children, ¬(d.tag = c.tag ∧ d.key = c.key)) →
      WrittenAlike t c → Differences m cs ts → Differences m (c :: cs) (t :: ts)
  | same {m c d : KnvNode} {cs ts : List KnvNode} : d ∈ m.children → d.tag = c.tag → Included c d →
      Differences m cs ts → Differences m (c :: cs) ts
  | different {m c d t : KnvNode} {cs ts : List KnvNode} : d ∈ m.children → d.tag = c.tag → d.key = c.key →
      ¬Included c d → Difference c d t → Differences m cs ts → Differences m (c :: cs) (t :: ts)

end

theorem Included.key {n m : KnvNode} (h : Included n m) : n.key = m.key := by
  cases h with
  | mk _ hk _ _ _ => exact hk

end KnvProto.KnvNode
