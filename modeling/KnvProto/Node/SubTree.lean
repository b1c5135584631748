import KnvProto.Node.Cases

/-!
# Operations between trees

`Compare`, which walks two trees together.

## The model

The walks expand what they look into, and an expansion makes nodes that were not
there before: the recursion is on fuel, and `weight` is enough of it, since a node
weighs more than each of its children. What a walk leaves expanded in the trees it
reads is left out. The nodes that are walked are a root and children, none of which
is taken for the key of a parent.
-/

namespace KnvProto.KnvNode

mutual

/-- How much there is in a node that can be walked: its children, or a value to be expanded. -/
def weight : KnvNode → ℕ
  | ⟨d, _, cs⟩ => if d.expanded then weightAll cs + 1 else d.val.str.length + 1

/-- The weight of nodes together. -/
def weightAll : List KnvNode → ℕ
  | [] => 0
  | n :: l => weight n + weightAll l

end

/-- `GetFirstChild` and its siblings. -/
def children (n : KnvNode) : List KnvNode := if n.isValid then (n.innerExpand false false).childlist else []

/-- The node that `FindChild` finds. -/
def findChildNode (n : KnvNode) (t : UInt32) (k : Bytes) : Option KnvNode :=
  match n.findChild t k {} with
  | (n, some a) => n.childlist.find? fun c => c.self = a
  | (_, none) => none

/-! ### Comparing -/

/-- The loop of `Compare` over the children of `n`, with the tree to return so far: `compare` is `Compare` of a child
with its counterpart in `m`. A tree that has to be made is made, and lost: `NULL` is returned. -/
def compareChildren (compare : KnvNode → KnvNode → Option KnvNode × ℤ) (n m : KnvNode) :
    List KnvNode → Option KnvNode → Option KnvNode × ℤ
  | [], ret => (ret, 0)
  | c :: cs, ret =>
    match m.findChildNode c.tag c.key.bytes with
    | none =>
      match ret with
      | none =>
        match newTree n.tag (some n.key) with
        | .error _ => (none, 1)
        | .ok _ => (none, 0)
      | some r =>
        let o := insertChild c false true {} r
        match o.ret with
        | .error _ => (none, 1)
        | .ok _ => compareChildren compare n m cs (some o.node)
    | some d =>
      match compare c d with
      | (sub, rc) =>
        if rc ≠ 0 then (none, rc)
        else match sub with
        | none => compareChildren compare n m cs ret
        | some s =>
          match ret with
          | none =>
            match newTree n.tag (some n.key) with
            | .error _ => (none, 1)
            | .ok _ => (none, 0)
          | some r =>
            let o := insertChild s true true {} r
            match o.ret with
            | .error _ => (none, 1)
            | .ok _ => compareChildren compare n m cs (some o.node)

/-- `Compare`, with fuel: the tree that is returned, and `nRetCode`. -/
def compareFuel : ℕ → KnvNode → KnvNode → Option KnvNode × ℤ
  | 0, _, _ => (none, 0)
  | fuel + 1, n, m =>
    if n.key ≠ m.key then
      match n.duplicate true with
      | .error _ => (none, 1)
      | .ok d => (some d, 0)
    else compareChildren (compareFuel fuel) n m n.children none

/-- `Compare`. -/
def compare (n m : KnvNode) : Option KnvNode × ℤ := compareFuel n.weight n m

/-! ### Walking -/

theorem weight_eq (n : KnvNode) : n.weight = if n.expanded then weightAll n.childlist + 1 else n.val.str.length + 1 := by
  obtain ⟨d, ms, cs⟩ := n
  rw [weight]

theorem weight_pos (n : KnvNode) : 0 < n.weight := by
  rw [weight_eq]
  split <;> exact Nat.succ_pos _

theorem weight_le_weightAll {c : KnvNode} : ∀ {l : List KnvNode}, c ∈ l → c.weight ≤ weightAll l := by
  intro l
  induction l with
  | nil => exact fun h => absurd h List.not_mem_nil
  | cons x l ih =>
    intro h
    rw [weightAll]
    rcases List.mem_cons.mp h with rfl | h
    · exact Nat.le_add_right ..
    · have := ih h
      omega

theorem weight_at' (n : KnvNode) (a : ℕ) : (n.at' a).weight = n.weight := by
  rw [weight_eq, weight_eq]
  rfl

/-- The node of a field weighs no more than the field's string. -/
theorem weight_ofField (p : PbField × ℕ) (k : Bool) : (ofField p k).weight ≤ p.1.val.str.length + 1 := by
  rw [weight_eq]
  split
  · exact Nat.succ_le_succ (Nat.zero_le _)
  · rw [ofField, initNode]
    cases p.1.type <;> simp [PbVal.pick]

theorem weight_parsed {k : Bool} {c : KnvNode} : ∀ {fs : List (PbField × ℕ)} {a : ℕ}, c ∈ parsed k a fs →
    ∃ p ∈ fs, c.weight ≤ p.1.val.str.length + 1 := by
  intro fs
  induction fs with
  | nil => exact fun h => absurd h List.not_mem_nil
  | cons p fs ih =>
    intro a h
    rw [parsed] at h
    rcases List.mem_cons.mp h with rfl | h
    · exact ⟨p, List.mem_cons_self .., weight_at' .. ▸ weight_ofField ..⟩
    · obtain ⟨q, hq, hle⟩ := ih h
      exact ⟨q, List.mem_cons_of_mem _ hq, hle⟩

/-- **A node weighs more than each of the children that are found in it.** -/
theorem weight_innerExpand {n c : KnvNode} {pk k : Bool} (h : c ∈ (n.innerExpand pk k).childlist) : c.weight < n.weight := by
  rw [weight_eq n]
  revert h
  refine innerExpand_rule (P := fun n' => c ∈ n'.childlist → _) (fun hexp h => ?_) fun n' hexp hn' h => ?_
  · rw [if_pos hexp]
    exact Nat.lt_succ_of_le (weight_le_weightAll h)
  · rw [hexp, if_neg Bool.false_ne_true]
    cases hn' with
    | leaf _ => exact absurd h List.not_mem_nil
    | cut _ _ _ _ _ _ _ => exact absurd h List.not_mem_nil
    | message _ _ _ _ _ _ _ =>
      obtain ⟨p, hp, hle⟩ := weight_parsed (List.mem_filter.mp h).1
      have := length_of_mem_pbScan hp
      omega

end KnvProto.KnvNode
