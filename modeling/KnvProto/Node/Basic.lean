import KnvProto.Node.Ht

/-!
# Nodes

`KnvNode`: its members, and `InitNode`, the only initialization entry.

## The model

A node owns its two lists, so a tree of objects linked by pointers is a tree of
values here; `parent`, `next` and `prev` are the position in that tree. `self`
is the address under which the parent's index and `metas[]` know the node. The
parent gives every node it links a new address, `slots` being the next one: an
object that the pool hands out again is a new node.

`child_num` is not a member: it is `-1` when `expanded` is false, and otherwise
the length of `childlist`, which every function of the source keeps it to.
Memory is never short. A value is its bytes, not where they are: what happens to
a value whose buffer is freed or written over by somebody else is not modelled.
-/

namespace KnvProto

/-- `UC_MAX_META_NUM`. -/
abbrev ucMaxMetaNum : UInt32 := 10

/-- The members of `KnvNode` but its lists. -/
structure KnvData where
  /-- The address. -/
  self : ℕ := 0
  /-- `tag`. -/
  tag : UInt32
  /-- `type`. -/
  type : PbType
  /-- `val`. -/
  val : PbVal := {}
  /-- `key`. -/
  key : KnvKey := {}
  /-- `child_num >= 0`. -/
  expanded : Bool := false
  /-- `ht`. -/
  ht : KnvHt := {}
  /-- `metas[]`, by address. -/
  metas : UInt32 → Option ℕ := fun _ => none
  /-- `subnode_dirty`. -/
  subnodeDirty : Bool := false
  /-- `child_has_key`. -/
  childHasKey : Bool := false
  /-- `no_key`. -/
  noKey : Bool := false
  /-- `eval_sz`. -/
  evalSz : ℤ := -1
  /-- `eval_val_sz`. -/
  evalValSz : ℤ := 0
  /-- The next address to give away. -/
  slots : ℕ := 0

/-- `KnvNode`. -/
structure KnvNode extends KnvData where
  /-- `metalist`. -/
  metalist : List KnvNode := []
  /-- `childlist`. -/
  childlist : List KnvNode := []

/-- The members of a union that the type selects. -/
def PbVal.pick (type : PbType) (val : PbVal) : PbVal := if type = .string then { str := val.str } else { i64 := val.i64 }

@[simp] theorem PbVal.pick_string (v : PbVal) : v.pick .string = { str := v.str } := rfl

/-- How a function of `KnvNode` fails: its return code, and `errmsg`. -/
structure KnvErr where
  /-- The return code. -/
  ret : ℤ
  /-- `errmsg`. -/
  errmsg : String
  deriving DecidableEq

namespace KnvNode

/-- A property of a node and of every node below it. -/
inductive All (P : KnvNode → Prop) : KnvNode → Prop
  | mk {n : KnvNode} : P n → (∀ m ∈ n.metalist, All P m) → (∀ c ∈ n.childlist, All P c) → All P n

theorem All.here {P : KnvNode → Prop} {n : KnvNode} : All P n → P n
  | mk h _ _ => h

theorem All.metas {P : KnvNode → Prop} {n : KnvNode} : All P n → ∀ m ∈ n.metalist, All P m
  | mk _ h _ => h

theorem All.children {P : KnvNode → Prop} {n : KnvNode} : All P n → ∀ c ∈ n.childlist, All P c
  | mk _ _ h => h

/-- Induction over a tree: a property that passes from the metas and children to the node. -/
theorem induct {P : KnvNode → Prop}
    (h : ∀ n : KnvNode, (∀ m ∈ n.metalist, P m) → (∀ c ∈ n.childlist, P c) → P n) (n : KnvNode) : P n :=
  @KnvNode.rec P (fun l => ∀ x ∈ l, P x) (fun d ms cs hms hcs => h ⟨d, ms, cs⟩ hms hcs)
    (fun _ hx => absurd hx List.not_mem_nil)
    (fun _ _ hx hl y hy => (List.mem_cons.mp hy).elim (fun e => e ▸ hx) (hl y)) n

theorem All.imp {P Q : KnvNode → Prop} (hPQ : ∀ n, P n → Q n) {n : KnvNode} (h : All P n) : All Q n := by
  induction n using induct with
  | h n hms hcs =>
    exact .mk (hPQ n h.here) (fun m hm => hms m hm (h.metas m hm)) fun c hc => hcs c hc (h.children c hc)

/-- `InitNode`, of a node whose other members are as the constructor leaves them. -/
def initNode (tag : UInt32) (type : PbType) (value : Option PbVal) (updateEval : Bool := true) (fieldSz : ℕ := 0)
    (forceNoKey : Bool := false) : KnvNode :=
  let val := match value with
    | some v => v.pick type
    | none => {}
  let strLen := if type = .string then val.str.length else 0
  -- only a string that may be a message is left to be expanded
  let folded := updateEval && strLen != 0 && (forceNoKey || (pbBegin val.str).isSome)
  { tag := tag
    type := type
    val := val
    key := if updateEval && strLen != 0 && !forceNoKey then KnvKey.ofBytes val.str else {}
    expanded := !folded
    noKey := forceNoKey || type != .string
    evalSz := if updateEval then (if 0 < fieldSz then fieldSz else pbEvalFieldLength tag type val : ℕ) else 0
    evalValSz := if updateEval then strLen else 0 }

/-- `child_num`. -/
def childNum (n : KnvNode) : ℤ := if n.expanded then n.childlist.length else -1

/-- `IsValid`. -/
def isValid (n : KnvNode) : Bool := n.tag != 0

/-- `IsBufferValid`. -/
def isBufferValid (n : KnvNode) : Bool := n.val.str != []

/-- A leaf, for `EvaluateSize`, `Fold` and `Serialize`: a number, a string that has not been
expanded, or a node with nothing in it. -/
def isFolded (n : KnvNode) : Bool := n.type != .string || !n.expanded || (n.childlist.isEmpty && n.metalist.isEmpty)

/-- `IsBufferValid() && !subnode_dirty`. -/
def isClean (n : KnvNode) : Bool := n.isBufferValid && !n.subnodeDirty

/-- The node with an address among the children and metas of `n`. -/
def byAddr (n : KnvNode) (a : ℕ) : Option KnvNode := (n.childlist ++ n.metalist).find? fun c => c.self = a

/-- What the index of `n` reads at an address. -/
def look (n : KnvNode) : Look := fun a => match n.byAddr a with
  | some c => (c.tag, c.key.bytes)
  | none => (0, [])

/-- Give a node an address. -/
def at' (n : KnvNode) (a : ℕ) : KnvNode := { n with self := a }

end KnvNode

end KnvProto
