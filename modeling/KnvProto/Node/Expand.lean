import KnvProto.Node.Basic

/-!
# Expansion

`InnerExpand`: a node's value is scanned once, every field becoming a meta (tags
1 to 10) or a child, and every child being put into the index.

The nodes that a scan makes do not depend on each other (`parsed`); the metas and
the children are those with small and with large tags (`foldl_expandField`).
-/

namespace KnvProto.KnvNode

/-- The node for a field that took `p.2` bytes. -/
def ofField (p : PbField × ℕ) (forceNoKey : Bool) : KnvNode :=
  initNode p.1.tag p.1.type (some p.1.val) true p.2 forceNoKey

/-- One turn of the loop of `InnerExpand`. -/
def expandField (forceNoKey : Bool) (n : KnvNode) (p : PbField × ℕ) : KnvNode :=
  if p.1.tag ≤ ucMaxMetaNum then
    -- metas always have no key
    let m := (ofField p true).at' n.slots
    let metas := if n.metalist.isEmpty then fun _ => none else n.metas
    { n with
      metalist := n.metalist ++ [m]
      metas := fun t => if t = p.1.tag then some m.self else metas t
      slots := n.slots + 1 }
  else
    let c := (ofField p forceNoKey).at' n.slots
    let n := { n with
      childlist := n.childlist ++ [c]
      childHasKey := c.key.bytes != [] || n.childHasKey
      slots := n.slots + 1 }
    { n with ht := n.ht.put n.look c.self }

/-- `InnerExpand`, under a parent that has a key or not. -/
def innerExpand (parentKeyed forceNoKey : Bool) (n : KnvNode) : KnvNode :=
  if n.expanded then n
  else
    let n := { n with expanded := true, metalist := [], childlist := [], childHasKey := false }
    if n.type ≠ .string then n
    -- a tag 1 below a node with a key is taken for the key, which is not expanded
    else if n.tag = 1 ∧ parentKeyed then n
    -- a string that is not a message is a leaf
    else if (pbBegin n.val.str).isNone then n
    else
      let (fs, eom) := pbScan n.val.str
      let n := { fs.foldl (expandField forceNoKey) n with subnodeDirty := false }
      -- a message that does not end correctly loses its nodes
      if eom then n else { n with metalist := [], childlist := [] }

/-- `Expand`. -/
def expand (parentKeyed : Bool) (n : KnvNode) : Except KnvErr KnvNode :=
  if n.isValid then .ok (n.innerExpand parentKeyed false) else .error ⟨-1, "node data is invalid"⟩

/-! ### What a scan makes -/

/-- The nodes for the fields of a scan, with addresses from `a` on. -/
def parsed (forceNoKey : Bool) : ℕ → List (PbField × ℕ) → List KnvNode
  | _, [] => []
  | a, p :: fs =>
    (ofField p (p.1.tag ≤ ucMaxMetaNum || forceNoKey)).at' a :: parsed forceNoKey (a + 1) fs

/-- Does the tag make a field a meta? -/
def isMetaTag (n : KnvNode) : Bool := n.tag ≤ ucMaxMetaNum

@[simp] theorem tag_ofField (p : PbField × ℕ) (k : Bool) : (ofField p k).tag = p.1.tag := rfl

@[simp] theorem metalist_ofField (p : PbField × ℕ) (k : Bool) : (ofField p k).metalist = [] := rfl

@[simp] theorem childlist_ofField (p : PbField × ℕ) (k : Bool) : (ofField p k).childlist = [] := rfl

/-- **The scan sorts its nodes into metas and children**, in their order, and leaves the other
members alone. -/
theorem foldl_expandField (k : Bool) (fs : List (PbField × ℕ)) : ∀ n : KnvNode, ∃ ht metas chk,
    fs.foldl (expandField k) n = { n with
      ht := ht
      metas := metas
      childHasKey := chk
      slots := n.slots + fs.length
      metalist := n.metalist ++ (parsed k n.slots fs).filter (·.isMetaTag)
      childlist := n.childlist ++ (parsed k n.slots fs).filter (!·.isMetaTag) } := by
  induction fs with
  | nil =>
    intro ⟨d, ms, cs⟩
    exact ⟨d.ht, d.metas, d.childHasKey, by simp [parsed]⟩
  | cons p fs ih =>
    intro n
    obtain ⟨ht, metas, chk, h⟩ := ih (expandField k n p)
    refine ⟨ht, metas, chk, ?_⟩
    rw [List.foldl_cons, h]
    by_cases htag : p.1.tag ≤ ucMaxMetaNum
    · have hmeta : ((ofField p true).at' n.slots).isMetaTag = true := decide_eq_true htag
      simp [expandField, htag, parsed, hmeta, Nat.add_assoc, Nat.add_comm 1]
    · have hchild : ((ofField p k).at' n.slots).isMetaTag = false := decide_eq_false htag
      simp [expandField, htag, parsed, hchild, Nat.add_assoc, Nat.add_comm 1]

/-- What `InnerExpand` does to a node that is not expanded: it is a leaf without nodes, or it gets
the nodes of a scan, or it loses them again because the message does not end correctly. -/
inductive Expanded (pk k : Bool) (n : KnvNode) : KnvNode → Prop
  /-- A number, a key, or a string that is not a message. -/
  | leaf : n.type ≠ .string ∨ n.tag = 1 ∧ pk = true ∨ pbBegin n.val.str = none →
      Expanded pk k n { n with expanded := true, metalist := [], childlist := [], childHasKey := false }
  /-- A message. -/
  | message (ht : KnvHt) (metas : UInt32 → Option ℕ) (chk : Bool) : n.type = .string →
      ¬(n.tag = 1 ∧ pk = true) → (pbBegin n.val.str).isSome → (pbScan n.val.str).2 = true →
      Expanded pk k n { n with
        expanded := true
        ht := ht
        metas := metas
        childHasKey := chk
        slots := n.slots + (pbScan n.val.str).1.length
        subnodeDirty := false
        metalist := (parsed k n.slots (pbScan n.val.str).1).filter (·.isMetaTag)
        childlist := (parsed k n.slots (pbScan n.val.str).1).filter (!·.isMetaTag) }
  /-- The beginning of a message. -/
  | cut (ht : KnvHt) (metas : UInt32 → Option ℕ) (chk : Bool) : n.type = .string →
      ¬(n.tag = 1 ∧ pk = true) → (pbBegin n.val.str).isSome → (pbScan n.val.str).2 = false →
      Expanded pk k n { n with
        expanded := true
        ht := ht
        metas := metas
        childHasKey := chk
        slots := n.slots + (pbScan n.val.str).1.length
        subnodeDirty := false
        metalist := []
        childlist := [] }

theorem innerExpand_of_expanded {pk k : Bool} {n : KnvNode} (h : n.expanded = true) : n.innerExpand pk k = n := by
  rw [innerExpand, if_pos h]

theorem innerExpand_cases {pk k : Bool} {n : KnvNode} (h : n.expanded = false) :
    Expanded pk k n (n.innerExpand pk k) := by
  rw [innerExpand, if_neg (by simp [h])]
  simp only
  by_cases htype : n.type = .string
  swap
  · rw [if_pos htype]
    exact .leaf (.inl htype)
  rw [if_neg (not_not_intro htype)]
  by_cases hkey : n.tag = 1 ∧ pk = true
  · rw [if_pos hkey]
    exact .leaf (.inr (.inl hkey))
  rw [if_neg hkey]
  by_cases hbegin : (pbBegin n.val.str).isNone
  · rw [if_pos hbegin]
    exact .leaf (.inr (.inr (Option.isNone_iff_eq_none.mp hbegin)))
  rw [if_neg hbegin]
  have hsome : (pbBegin n.val.str).isSome := Option.ne_none_iff_isSome.mp fun h => hbegin (by simp [h])
  obtain ⟨ht, metas, chk, hfold⟩ := foldl_expandField k (pbScan n.val.str).1
    { n with expanded := true, metalist := [], childlist := [], childHasKey := false }
  rw [hfold]
  simp only [List.nil_append]
  by_cases heom : (pbScan n.val.str).2
  · rw [if_pos heom]
    exact .message ht metas chk htype hkey hsome heom
  · rw [if_neg heom]
    exact .cut ht metas chk htype hkey hsome (by simpa using heom)

/-- The rule for `InnerExpand`: a property of the node if it is expanded already, and of everything
that an expansion can lead to, holds of the result. -/
theorem innerExpand_rule {P : KnvNode → Prop} {pk k : Bool} {n : KnvNode} (hdone : n.expanded = true → P n)
    (hnew : ∀ n', n.expanded = false → Expanded pk k n n' → P n') : P (n.innerExpand pk k) := by
  cases h : n.expanded with
  | true =>
    rw [innerExpand_of_expanded h]
    exact hdone h
  | false => exact hnew _ h (innerExpand_cases h)

/-- A node of another key and size, at another address, is expanded to the same nodes. -/
theorem innerExpand_relabel (n : KnvNode) (a : ℕ) (key : KnvKey) (sz : ℤ) (pk k : Bool) :
    innerExpand pk k { n with self := a, key := key, evalSz := sz } =
    { n.innerExpand pk k with self := a, key := key, evalSz := sz } := by
  have hfield : ∀ (m : KnvNode) p,
      expandField k { m with self := a, key := key, evalSz := sz } p =
        { expandField k m p with self := a, key := key, evalSz := sz } := by
    intro m p
    unfold expandField
    split <;> rfl
  have hfold : ∀ (fs : List (PbField × ℕ)) (m : KnvNode), fs.foldl (expandField k)
    { m with self := a, key := key, evalSz := sz } =
      { fs.foldl (expandField k) m with self := a, key := key, evalSz := sz } := by
    intro fs
    induction fs with
    | nil => exact fun _ => rfl
    | cons p fs ih => exact fun m => by rw [List.foldl_cons, List.foldl_cons, hfield, ih]
  have hstart := hfold (pbScan n.val.str).1
    { n with expanded := true, metalist := [], childlist := [], childHasKey := false }
  unfold innerExpand
  simp only at hstart ⊢
  rw [hstart]
  split
  · rfl
  split
  · rfl
  split
  · rfl
  split
  · rfl
  split <;> rfl

end KnvProto.KnvNode
