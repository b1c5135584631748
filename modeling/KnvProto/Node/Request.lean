import KnvProto.Node.SubTree

/-!
# Requests

A request is a tree, too: a leaf of it asks for a node as a whole, and an inner
node for what its children ask for. `GetSubTree` answers one with the data that
is found and with the part of the request that is not, and `MakeRequestTree`
makes one of a data tree.

## The model

Both leave the data tree expanded where they have looked into it; what a query
leaves expanded in the request is left out. The source looks up a meta in
`metas[]` alone: `pool` says what lies at the address of a meta that is not in
the node any more. The recursion is on fuel, as it is for `Compare`.
-/

namespace KnvProto

/-- What `InnerGetSubTree` leaves. -/
structure Answer where
  /-- The node that was asked. -/
  node : KnvNode
  /-- `out`. -/
  out : Option KnvNode := none
  /-- `empty`. -/
  empty : Option KnvNode := none
  /-- The return code. -/
  ret : Except KnvErr Unit := .ok ()

namespace KnvNode

/-! ### Queries -/

/-- `DupEmptyNode`: a node with nothing but its key. -/
def dupEmptyNode (n : KnvNode) : KnvNode :=
  { initNode n.tag n.type none false with
    key := n.key
    evalValSz := if n.key.bytes = [] then 0 else pbEvalFieldLength 1 n.key.type n.key.getValue }

/-- Put the bytes of a key, if there is one, and not its type. -/
def putKey (n : KnvNode) (k : Bytes) : KnvNode := if k = [] then n else { n with key := { n.key with bytes := k } }

/-- A copy of a whole node, with its key. -/
def dupWithKey (n : KnvNode) : Except KnvErr KnvNode := (n.innerDuplicate true).map fun d => d.putKey n.key.bytes

/-- Insert a node into a result, which is made of `src` when there is none. -/
def addTo (src : KnvNode) (res : Option KnvNode) (c : KnvNode) : KnvNode :=
  (innerInsertChild c true false true (res.getD src.dupEmptyNode)).node

/-- The size of a result, at the end. -/
def closeUp (n : KnvNode) : KnvNode := { n with evalSz := pbEvalLength n.tag .string 0 n.evalValSz.toNat }

/-- Is it a request for a meta? -/
def asksMeta (m : KnvNode) : Bool := m.tag != 1 && m.type == .varint && m.val.i64 != 0

/-- The loop over the metas of a request. -/
def getMetas (pool : ℕ → KnvNode) : List KnvNode → Answer → Answer
  | [], acc => acc
  | m :: ms, acc =>
    if m.asksMeta then
      match acc.node.metas m.tag with
      | none => getMetas pool ms acc
      | some a =>
        let md := (acc.node.metalist.find? fun x => x.self = a).getD (pool a)
        match md.getValue with
        | (md, .error e) => { node := acc.node.setMetaNode md, ret := .error ⟨-4, e.errmsg⟩ }
        | (md, .ok v) => getMetas pool ms { acc with
            node := acc.node.setMetaNode md
            out := some (setMetaInner md.tag md.type (some v) false {} (acc.out.getD acc.node.dupEmptyNode)).node }
    else getMetas pool ms acc

/-- The children that a request is put to: the one with its key, or all with its tag. -/
def found (n req : KnvNode) : List ℕ :=
  if req.key.bytes ≠ [] then (n.ht.get n.look req.tag req.key.bytes).toList
  else if !n.childHasKey then (n.ht.getChain n.look req.tag []).filter fun a => (n.look a).1 = req.tag
  else (n.childlist.filter fun c => c.tag = req.tag).map (·.self)

/-- Replace the child at an address. -/
def setChildNode (n c : KnvNode) : KnvNode :=
  { n with childlist := n.childlist.map fun x => if x.self = c.self then c else x }

/-- `GET_SUBDATA_SUB_TREE`, for the children at some addresses: `query` is `InnerGetSubTree` of a child. -/
def getMatches (query : KnvNode → Answer) (noEmpty : Bool) (req : KnvNode) : List ℕ → Answer → Answer
  | [], acc => acc
  | a :: as, acc =>
    match acc.node.childlist.find? fun c => c.self = a with
    | none => getMatches query noEmpty req as acc
    | some c =>
      let r := query c
      match r.ret with
      | .error e => { node := acc.node.setChildNode r.node, ret := .error ⟨-2, e.errmsg⟩ }
      | .ok _ => getMatches query noEmpty req as { acc with
          node := acc.node.setChildNode r.node
          out := match r.out with
            | some o => some (addTo acc.node acc.out o)
            | none => acc.out
          empty := match r.empty with
            | some e => if noEmpty then acc.empty else some (addTo req acc.empty e)
            | none => acc.empty }

/-- The loop over the children of a request: one that is put to no child goes to `empty`. -/
def getChildren (query : KnvNode → KnvNode → Answer) (noEmpty : Bool) (req : KnvNode) : List KnvNode → Answer → Answer
  | [], acc => acc
  | s :: ss, acc =>
    let matched := acc.node.found s
    let acc := getMatches (query s) noEmpty req matched acc
    match acc.ret with
    | .error _ => acc
    | .ok _ =>
      if matched.isEmpty && !noEmpty then
        let o := innerInsertChild s false false true (acc.empty.getD req.dupEmptyNode)
        match o.ret with
        | .error e => { node := acc.node, ret := .error ⟨-1, e.errmsg⟩ }
        | .ok _ => getChildren query noEmpty req ss { acc with empty := some o.node }
      else getChildren query noEmpty req ss acc

/-- `InnerGetSubTree`, with fuel, under a request and a parent that have a key or not. -/
def innerGetSubTreeFuel (pool : ℕ → KnvNode) (noEmpty : Bool) : ℕ → Bool → Bool → KnvNode → KnvNode → Answer
  | 0, _, _, _, n => { node := n }
  | fuel + 1, reqKeyed, parentKeyed, req, n =>
    -- not requesting this node
    if req.type ≠ .string ∧ req.val.i64 = 0 then { node := n }
    else
      let req := req.innerExpand reqKeyed false
      -- request the whole node
      if req.childNum ≤ 0 then
        match n.dupWithKey with
        | .error e => { node := n, ret := .error ⟨-2, e.errmsg⟩ }
        | .ok d => { node := n, out := some d }
      else
        let n := n.innerExpand parentKeyed (!req.childHasKey)
        -- this is a leaf, but the request is not
        if n.childNum ≤ 0 then
          if noEmpty then { node := n }
          else
            match req.dupWithKey with
            | .error e => { node := n, ret := .error ⟨-3, e.errmsg⟩ }
            | .ok d => { node := n, empty := some d }
        else
          let acc := getMetas pool req.metalist { node := n }
          match acc.ret with
          | .error _ => acc
          | .ok _ =>
            let acc := getChildren (innerGetSubTreeFuel pool noEmpty fuel (req.key.bytes != []) (n.key.bytes != [])) noEmpty
              req req.childlist acc
            match acc.ret with
            | .error _ => acc
            | .ok _ => { acc with out := acc.out.map closeUp, empty := acc.empty.map closeUp }

/-- `GetSubTree`, of a root by a root. -/
def getSubTree (pool : ℕ → KnvNode) (noEmpty : Bool) (req n : KnvNode) : Answer :=
  if req.tag = 0 then { node := n, ret := .error ⟨-1, "Bad argument"⟩ }
  -- no same node, or the request contains a key but a different one
  else if n.tag ≠ req.tag ∨ (req.key.bytes ≠ [] ∧ n.key ≠ req.key) then { node := n }
  else innerGetSubTreeFuel pool noEmpty req.weight false false req n

/-- `GetSubTree`, of a node at its place, by a root. -/
def getSubTreeAt (pool : ℕ → KnvNode) (noEmpty : Bool) (req : KnvNode) (pl : Place) (n : KnvNode) : Answer :=
  if req.tag = 0 then { node := n, ret := .error ⟨-1, "Bad argument"⟩ }
  else if n.tag ≠ req.tag ∨ (req.key.bytes ≠ [] ∧ n.key ≠ req.key) then { node := n }
  else innerGetSubTreeFuel pool noEmpty req.weight false pl.parentKeyed req n

/-! ### Making a request -/

/-- The request for a whole node: a number, or an empty node with the key. -/
def leafRequest (n : KnvNode) : Except KnvErr KnvNode :=
  if !n.expanded || n.metalist.isEmpty then new n.tag .varint .string none (some { i64 := 1 }) else newTree n.tag
    (some n.key)

/-- The loop of `MakeRequestTree` over the children: `make` is `MakeRequestTree` of a child. -/
def makeRequests (make : KnvNode → KnvNode × Option KnvNode) : List KnvNode → KnvNode → List KnvNode × Option KnvNode
  | [], tr => ([], some tr)
  | c :: cs, tr =>
    match make c with
    | (c, none) => (c :: cs, none)
    | (c, some r) =>
      let (cs, res) := makeRequests make cs (innerInsertChild r true true true tr).node
      (c :: cs, res)

/-- `MakeRequestTree`, of the levels that are left, the last one being that of `max_level` below 0: the node, which has
been expanded, and the request. -/
def makeRequestTreeLevels : ℕ → Bool → KnvNode → KnvNode × Option KnvNode
  | 0, _, n => (n, if n.isValid then n.leafRequest.toOption else none)
  | levels + 1, parentKeyed, n =>
    if !n.isValid then (n, none)
    else
      let n := n.innerExpand parentKeyed false
      if n.childNum ≤ 0 then (n, n.leafRequest.toOption)
      else
        match newTree n.tag (some n.key) with
        | .error _ => (n, none)
        | .ok tr =>
          let (cs, res) := makeRequests (makeRequestTreeLevels levels (n.key.bytes != [])) n.childlist tr
          ({ n with childlist := cs }, res)

/-- `MakeRequestTree(max_level)`, of a root. -/
def makeRequestTree (maxLevel : ℤ) (n : KnvNode) : KnvNode × Option KnvNode :=
  makeRequestTreeLevels (maxLevel + 1).toNat false n

end KnvNode

end KnvProto
