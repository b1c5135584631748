import KnvProto.Node.Ops

/-!
# What an operation can do

One rule for each function that changes a node: to prove something of its
outcome, prove it of every way the function can end. The invariants of trees use
these rules and do not look into the functions again.
-/

namespace KnvProto.KnvNode

open PathEdit

variable {P : Out → Prop} {n : KnvNode} {pl : Place}

/-- The value of a meta that `SetMeta` leaves. -/
def metaVal (type : PbType) (data : Option PbVal) : PbVal :=
  match data with
  | some v => v.pick type
  | none => {}

/-- The encoded size of a meta that `SetMeta` leaves. -/
def metaSize (tag : UInt32) (type : PbType) (data : Option PbVal) : ℤ := pbEvalFieldLength tag type (metaVal type data)

/-- What `SetMeta` makes of a meta that exists: an expanded one loses its nodes. -/
theorem overwrite_eq (m : KnvNode) (tag : UInt32) (type : PbType) (data : Option PbVal) (isKey : Bool) :
    m.overwrite tag type data isKey =
      { (if m.expanded then { m with metalist := [], childlist := [], expanded := isKey } else m) with
        type := type
        val := metaVal type data
        evalValSz := if type = .string then (metaVal type data).str.length else 0
        evalSz := metaSize tag type data } := by
  unfold overwrite
  simp only
  split <;> rfl

theorem setValueInt_rule {v : UInt64} (hfail : ∀ e, P ⟨n, [], .error e⟩)
    (hset : n.isValid → n.type ≠ .string →
      P ⟨{ n with
            val := { i64 := v }
            evalSz := pbEvalFieldLength n.tag n.type { i64 := v }
            evalValSz := 0
            subnodeDirty := true },
        [updateParent (pbEvalFieldLength n.tag n.type { i64 := v } - n.evalSz)], .ok 0⟩) :
    P (n.setValueInt v) := by
  unfold setValueInt
  split
  · exact hfail _
  split
  · exact hfail _
  · next hv ht => exact hset (by simpa using hv) ht

/-- `SetValue` of a string: a node with a key takes the key of the new value, and the index hears
of it. -/
theorem setValueStr_rule {s : Bytes} (hfail : ∀ e, P ⟨n, [], .error e⟩)
    (hset : n.isValid → n.type = .string → ∀ (k : KnvKey) (evs : List Ev),
      (n.noKey = false ∧ (n.keyAfterTest s).bytes ≠ [] ∧ k = KnvKey.ofBytes s ∧
          evs = [.htRemove n.tag (n.keyAfterTest s).bytes, .htPut n.tag k.bytes] ∨
        (n.noKey = true ∨ (n.keyAfterTest s).bytes = []) ∧ k = n.keyAfterTest s ∧ evs = []) →
      ∀ n' : KnvNode, n' = { n with
        key := k
        val := { str := s }
        expanded := false
        metalist := []
        childlist := []
        subnodeDirty := true } →
      ∀ u, u = (if 0 ≤ n.evalSz then n'.updateEvalSz (s.length - n.evalValSz) else (n', 0)) →
      P ⟨u.1, evs ++ [updateParent u.2], .ok 0⟩) :
    P (n.setValueStr s) := by
  unfold setValueStr
  split
  · exact hfail _
  split
  · exact hfail _
  · next hv ht =>
    have hset := hset (by simpa using hv) (by simpa using ht)
    by_cases hk : n.noKey = false ∧ (n.keyAfterTest s).bytes ≠ []
    · have hhas : ({ n with key := n.keyAfterTest s, val := { str := s } } : KnvNode).hasKey = true := by
        simp [hasKey, hk.1, hk.2]
      simp only [hhas, if_true]
      exact hset _ _ (.inl ⟨hk.1, hk.2, rfl, rfl⟩) _ rfl _ rfl
    · have hk' : n.noKey = true ∨ (n.keyAfterTest s).bytes = [] := by
        rw [not_and_or, Bool.not_eq_false, ne_eq, not_not] at hk
        exact hk
      have hhas : ({ n with key := n.keyAfterTest s, val := { str := s } } : KnvNode).hasKey = false := by
        rcases hk' with h | h <;> simp [hasKey, h]
      simp only [hhas, Bool.false_eq_true, if_false]
      exact hset _ _ (.inr ⟨hk', rfl, rfl⟩) _ rfl _ rfl

theorem setTag_rule {t : UInt32} (hfail : ∀ e, P ⟨n, [], .error e⟩)
    (hset : t ≠ 0 → n.isValid → ∀ sz : ℤ,
      sz = (if 0 ≤ n.evalSz then
          if n.type = .string then (pbEvalLength t n.type 0 n.evalValSz.toNat : ℤ) else pbEvalFieldLength t n.type n.val
        else n.evalSz) →
      P ⟨{ n with tag := t, evalSz := sz, subnodeDirty := true },
        [.htRemove n.tag n.key.bytes, .htPut t n.key.bytes, updateParent (sz - n.evalSz)], .ok 0⟩) :
    P (n.setTag t) := by
  unfold setTag
  split
  · exact hfail _
  split
  · exact hfail _
  · next ht hv =>
    exact hset ht (by simpa using hv) _ rfl

theorem setMetaInner_rule {tag : UInt32} {type : PbType} {data : Option PbVal}
    (hfail : n.isValid = false ∨ n.type ≠ .string ∨ ucMaxMetaNum < tag → ∀ e, P ⟨n, [], .error e⟩)
    (hset : n.isValid → n.type = .string → tag ≤ ucMaxMetaNum → ∀ n', n' = n.innerExpand pl.parentKeyed false →
      (∀ m, n'.metaAt tag = some m →
        P ((n'.setMetaNode (m.overwrite tag type data (!n'.noKey && tag == 1))).finish
          (metaSize tag type data - m.evaluateSize.evalSz))) ∧
      (n'.metaAt tag = none → P ((n'.addMetaNode tag type data).finish (metaSize tag type data)))) :
    P (n.setMetaInner tag type data true pl) := by
  unfold setMetaInner
  split
  · next hv => exact hfail (.inl (by simpa using hv)) _
  split
  · next ht => exact hfail (.inr (.inl ht)) _
  split
  · next htag => exact hfail (.inr (.inr htag)) _
  · next hv ht htag =>
    obtain ⟨hover, hadd⟩ := hset (by simpa using hv) (by simpa using ht) (UInt32.not_lt.mp htag) _ rfl
    simp only
    cases hm : (n.innerExpand pl.parentKeyed false).metaAt tag with
    | some m => exact hover m hm
    | none =>
      have h := hadd hm
      rw [← Int.sub_zero (metaSize tag type data)] at h
      exact h

theorem innerRemoveMeta_rule {tag : UInt32}
    (hfail : n.isValid = false ∨ ucMaxMetaNum < tag → ∀ e, P ⟨n, [], .error e⟩)
    (hset : n.isValid → tag ≤ ucMaxMetaNum → ∀ n', n' = n.innerExpand pl.parentKeyed false →
      (n'.metaAt tag = none → P ⟨n', [], .ok 0⟩) ∧
      ∀ m, n'.metaAt tag = some m →
        P (finish { n' with
          metalist := n'.metalist.eraseP fun x => x.self = m.self
          metas := fun t => if t = tag then none else n'.metas t } (-m.evaluateSize.evalSz))) :
    P (n.innerRemoveMeta tag pl) := by
  unfold innerRemoveMeta
  split
  · next hv => exact hfail (.inl (by simpa using hv)) _
  split
  · next htag => exact hfail (.inr htag) _
  · next hv htag =>
    obtain ⟨hnone, hsome⟩ := hset (by simpa using hv) (UInt32.not_lt.mp htag) _ rfl
    simp only
    split
    · next hm => exact hnone hm
    · next m hm => exact hsome m hm

/-- `SetKey`: the index hears of it before and after what is done to the metas. -/
theorem setKey_rule {ktype : PbType} {kval : Option PbVal}
    (hset : ∀ n', n' = { n with key := KnvKey.init ktype kval } → ∀ o : Out,
      (n'.key.bytes ≠ [] ∧ o = n'.setMetaInner 1 ktype (some n'.key.getValue) true pl ∨
        n'.key.bytes = [] ∧ o = n'.innerRemoveMeta 1 pl) →
      (∀ e, P ⟨o.node, [.htRemove n.tag n.key.bytes] ++ o.msgs ++ [.htPut o.node.tag o.node.key.bytes], .error e⟩) ∧
      P ⟨{ o.node with noKey := false },
        [.htRemove n.tag n.key.bytes] ++ o.msgs ++ [.htPut o.node.tag o.node.key.bytes], .ok 0⟩) :
    P (n.setKey ktype kval pl) := by
  unfold setKey
  simp only
  by_cases hk : (KnvKey.init ktype kval).bytes = []
  · obtain ⟨he, hok⟩ := hset _ rfl _ (.inr ⟨hk, rfl⟩)
    simp only [hk, bne_self_eq_false, Bool.false_eq_true, if_false]
    split
    · exact he _
    · exact hok
  · obtain ⟨he, hok⟩ := hset _ rfl _ (.inl ⟨hk, rfl⟩)
    simp only [bne_iff_ne, ne_eq, hk, not_false_eq_true, if_true]
    split
    · exact he _
    · exact hok

theorem setMeta_rule {tag : UInt32} {type : PbType} {data : Option PbVal}
    (hkey : n.noKey = false → tag = 1 → P (n.setKey type data pl))
    (hmeta : n.noKey = true ∨ tag ≠ 1 → P (n.setMetaInner tag type data true pl)) :
    P (n.setMeta tag type data pl) := by
  unfold setMeta
  split
  · next h =>
    rw [Bool.and_eq_true, Bool.not_eq_true', beq_iff_eq] at h
    exact hkey h.1 h.2
  · next h =>
    refine hmeta ?_
    by_contra hcon
    rw [not_or, Bool.not_eq_true, ne_eq, not_not] at hcon
    exact h (by simp [hcon.1, hcon.2])

theorem removeMeta_rule {tag : UInt32} (hkey : tag = 1 → P (n.setKey n.key.type none pl))
    (hmeta : tag ≠ 1 → P (n.innerRemoveMeta tag pl)) : P (n.removeMeta tag pl) := by
  unfold removeMeta
  split
  · next h => exact hkey h
  · next h => exact hmeta h

/-- What `New` makes: a node without key, with an empty one, or with a key and its meta. -/
theorem new_cases {tag : UInt32} {type keytype : PbType} {key val : Option PbVal} {c : KnvNode}
    (h : new tag type keytype key val = .ok c) :
    tag ≠ 0 ∧ (key = none ∧ c = initNode tag type val ∨
      ∃ k, key = some k ∧ ∀ n, n = { initNode tag type val with key := KnvKey.init keytype (some k) } →
        n.key.bytes = [] ∧ c = n ∨
        n.key.bytes ≠ [] ∧ ∃ r, (n.setMetaInner 1 keytype (some n.key.getValue) true {}).ret = .ok r ∧
          c = (n.setMetaInner 1 keytype (some n.key.getValue) true {}).node) := by
  unfold new at h
  split at h
  · cases h
  · next ht =>
    refine ⟨ht, ?_⟩
    simp only at h
    split at h
    · cases h
      exact .inl ⟨rfl, rfl⟩
    · next k =>
      refine .inr ⟨k, rfl, fun n hn => ?_⟩
      subst hn
      split at h
      · next hk =>
        cases h
        exact .inl ⟨hk, rfl⟩
      · next hk =>
        split at h
        · cases h
        · next r hr =>
          cases h
          exact .inr ⟨hk, r, hr, rfl⟩

/-- A new tree with the key `k`, before its meta is made. -/
def treeWithKey (tag : UInt32) (k : KnvKey) : KnvNode := { initNode tag .string none with key := k }

/-- `NewTree` makes a node with no nodes below it, or with its key as the only one. -/
theorem newTree_cases {tag : UInt32} {key : Option KnvKey} {n : KnvNode} (h : newTree tag key = .ok n) :
    tag ≠ 0 ∧ ∃ k, (k = {} ∨ ∃ kk, key = some kk ∧ k = KnvKey.init kk.type (some kk.getValue)) ∧
      (k.bytes = [] ∧ n = treeWithKey tag k ∨
        k.bytes ≠ [] ∧ n = (((treeWithKey tag k).addMetaNode 1 k.type (some k.getValue)).finish
          (metaSize 1 k.type (some k.getValue))).node) := by
  cases key with
  | none =>
    obtain ⟨ht, ⟨-, rfl⟩ | ⟨k, hk, -⟩⟩ := new_cases (show new tag .string .string none none = .ok n from h)
    · exact ⟨ht, {}, .inl rfl, .inl ⟨rfl, rfl⟩⟩
    · cases hk
  | some kk =>
    obtain ⟨ht, ⟨hk, -⟩ | ⟨v, hv, hn⟩⟩ :=
      new_cases (show new tag .string kk.type (some kk.getValue) none = .ok n from h)
    · cases hk
    cases hv
    refine ⟨ht, KnvKey.init kk.type (some kk.getValue), .inr ⟨kk, rfl, rfl⟩, ?_⟩
    obtain ⟨hk, rfl⟩ | ⟨hk, r, hr, rfl⟩ := hn _ rfl
    · exact .inl ⟨hk, rfl⟩
    refine .inr ⟨hk, ?_⟩
    have htype := KnvKey.type_init kk.type (some kk.getValue)
    rw [htype]
    revert hr
    refine setMetaInner_rule (P := fun o => o.ret = .ok r → o.node = _) (fun _ e he => nomatch he) fun _ _ _ n' hn' => ?_
    rw [innerExpand_of_expanded rfl] at hn'
    subst hn'
    exact ⟨fun m hm => (nomatch hm), fun _ _ => rfl⟩

/-- The child that `InnerInsertChild` links: the one given, or a duplicate of it. -/
def toLink (child : KnvNode) (takeOwnership : Bool) : Except KnvErr KnvNode :=
  if takeOwnership then .ok child else child.innerDuplicate false

theorem insertChild_rule {child : KnvNode} {own atTail : Bool} (hfail : ∀ e, P ⟨n, [], .error e⟩)
    (hset : n.isValid → n.type = .string → ∀ n', n' = n.innerExpand pl.parentKeyed false →
      (∀ e, P ⟨n', [], .error e⟩) ∧
      ∀ c, child.toLink own = .ok c → ∀ c', c' = (if 0 ≤ n'.evalSz then c.evaluateSize else c) →
        P ((n'.linkChild c' atTail).finish c'.evalSz)) :
    P (insertChild child own atTail pl n) := by
  unfold insertChild
  split
  · exact hfail _
  split
  · exact hfail _
  · next hv ht =>
    obtain ⟨he, hok⟩ := hset (by simpa using hv) (by simpa using ht) _ rfl
    unfold innerInsertChild
    cases hc : child.toLink own with
    | error e =>
      rw [toLink] at hc
      simp only [Bool.not_true, hc]
      exact he _
    | ok c =>
      have h := hok c hc _ rfl
      rw [toLink] at hc
      simp only [Bool.not_true, hc, Bool.false_or, Bool.false_eq_true, if_false]
      simpa using h

theorem removeChildByPos_rule {a : ℕ} {pos : Option ℕ} (hnone : P ⟨n, [], .ok 0⟩)
    (hsome : ∀ c, (n.childlist.find? fun c => c.self = a) = some c →
      ∀ o : Out, o = finish { n with
          ht := match pos with
            | some hi => n.ht.removePos a hi
            | none => n.ht.remove a c.tag c.key.bytes
          childlist := n.childlist.eraseP fun c => c.self = a }
        (if 0 ≤ n.evalSz then -c.evaluateSize.evalSz else 0) →
      P ⟨o.node, o.msgs, .ok 1⟩) :
    P (n.removeChildByPos a pos) := by
  unfold removeChildByPos
  split
  · exact hnone
  · next c hc => exact hsome c hc _ rfl

theorem removeChild_rule {t : UInt32} {k : Bytes} (hfail : P ⟨n, [], .ok 0⟩)
    (hset : n.isValid → ∀ n', n' = n.innerExpand pl.parentKeyed false →
      P ⟨n', [], .ok 0⟩ ∧
      ∀ a, n'.ht.get n'.look t k = some a → P (n'.removeChildByPos a (some (getKeyhash t k n'.ht.sz)))) :
    P (n.removeChild t k pl) := by
  unfold removeChild findChild
  by_cases hv : n.isValid
  · obtain ⟨hnone, hsome⟩ := hset hv _ rfl
    simp only [hv, Bool.not_true, Bool.false_eq_true, if_false]
    split
    · exact hnone
    · next a ha =>
      refine hsome a ?_
      split at ha
      · cases ha
      · exact ha
  · simp only [Bool.not_eq_true] at hv
    simp only [hv, Bool.not_false, if_true]
    exact hfail

theorem removeChildrenByTag_rule {t : UInt32} (hfail : ∀ e, P ⟨n, [], .error e⟩)
    (hset : n.isValid → ∀ n', n' = n.innerExpand pl.parentKeyed false →
      P ⟨n', [], .ok 0⟩ ∧
      ∀ matched, matched = (n'.childlist.filter fun c => c.tag = t) → matched ≠ [] →
        ∀ o : Out, o = finish { n' with
            ht := matched.foldl (fun ht (c : KnvNode) => ht.remove c.self c.tag c.key.bytes) n'.ht
            childlist := n'.childlist.filter fun c => c.tag ≠ t }
          (if 0 ≤ n'.evalSz then -(matched.map (·.evaluateSize.evalSz)).sum else 0) →
        P ⟨o.node, o.msgs, .ok matched.length⟩) :
    P (n.removeChildrenByTag t pl) := by
  unfold removeChildrenByTag
  split
  · exact hfail _
  · next hv =>
    obtain ⟨hnone, hsome⟩ := hset (by simpa using hv) _ rfl
    simp only
    split
    · exact hnone
    · next hne => exact hsome _ rfl (by simpa using hne) _ rfl

theorem getValueOp_rule (hfail : ∀ e, P ⟨n, [], .error e⟩) (hfail' : ∀ e, P ⟨n.evaluateSize, [], .error e⟩)
    (hkeep : n.isValid → n.isFolded || n.isClean → P ⟨n, [], .ok 0⟩)
    (hfold : n.isValid → (n.isFolded || n.isClean) = false → ∀ n' out, n' = n.evaluateSize →
      n'.serialize (Memory.allocSize n'.evalSz.toNat) false = .ok out → n'.evalValSz = out.length →
      P ⟨{ n' with
        val := { str := out }
        subnodeDirty := false
        expanded := false
        metalist := []
        childlist := [] }, [], .ok 0⟩) :
    P n.getValueOp := by
  have key : ∀ r : KnvNode × Except KnvErr Unit, r = n.fold →
      P ⟨r.1, [], (r.2.map fun _ => r.1.val).map fun _ => 0⟩ := by
    intro r hr
    unfold fold at hr
    split at hr
    · subst hr; exact hfail _
    split at hr
    · next hv hk => subst hr; exact hkeep (by simpa using hv) hk
    · next hv hk =>
      simp only at hr
      split at hr
      · subst hr; exact hfail' _
      · next out hout =>
        split at hr
        · subst hr; exact hfail' _
        · next hlen =>
          subst hr
          exact hfold (by simpa using hv) (by simpa using hk) _ out rfl hout (not_not.mp hlen)
  exact key n.fold rfl

end KnvProto.KnvNode
