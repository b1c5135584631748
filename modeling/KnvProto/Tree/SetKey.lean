import KnvProto.Tree.Identity
import KnvProto.Tree.Reread

/-!
# Setting a key

`SetMeta` of tag 1 gives a node another key, which is kept in four places: in the node, in its first meta, in the bucket
of its parent's index, and in the flag `child_has_key` of the parent. `rekeyed_of_run` says when all of them, and what is
written, tell the new key.

## The model

`SetKey` writes the first three; the flag is not touched, so a parent that had no child with a key looks for the node under
its tag alone. What is written has the key first and leaves out the first meta if its tag is 1: a tag 1 in any other place
is written a second time.
-/

namespace KnvProto

open PathEdit

namespace KnvNode

/-! ### What is asked of a node and of its parent -/

/-- A number of its type, or a string that is not empty. -/
def IsKey (type : PbType) (k : PbVal) : Prop := k.norm type = k ∧ (type = .string → k.str ≠ [])

/-- When a node takes a key, and is read back with it: `q` is the node that a lookup leaves. -/
structure KeyFits (type : PbType) (k : PbVal) (q : KnvNode) : Prop where
  /-- The length of the key fits. -/
  short : type = .string → k.str.length < 2 ^ 16
  /-- The node is read back. -/
  back : ReadBack q
  /-- Only its first meta can be the key. -/
  first : ∀ m ∈ q.metalist.tail, m.tag ≠ 1
  /-- `GetMeta` finds it. -/
  lead : ∀ m, q.metalist.head? = some m → m.tag = 1 → q.metaAt 1 = some m
  /-- A key that the node has is in it. -/
  key : q.hasKey = true → ∃ m, q.metalist.head? = some m ∧ m.tag = 1 ∧ m.evalSz = q.keyLength

variable {n q q' c p : KnvNode} {type : PbType} {k : PbVal} {pl : Place}

theorem bytes_ne_nil (hk : IsKey type k) (hshort : type = .string → k.str.length < 2 ^ 16) :
    (KnvKey.init type (some k)).bytes ≠ [] :=
  KnvKey.bytes_init_ne_nil type k fun ht => ⟨hk.2 ht, hshort ht⟩

theorem getValue_key (hk : IsKey type k) (hshort : type = .string → k.str.length < 2 ^ 16) :
    (KnvKey.init type (some k)).getValue = k := by
  rw [KnvKey.getValue_init type k hshort, hk.1]

/-! ### What `SetKey` does -/

/-- The key is in the first meta, and the other metas are those that were there; the node has grown by `d`. -/
structure KeyLed (q q' : KnvNode) (type : PbType) (k : PbVal) (d : ℤ) : Prop where
  tag : q'.tag = q.tag
  kind : q'.type = q.type
  expanded : q'.expanded = q.expanded
  noKey : q'.noKey = q.noKey
  key : q'.key = KnvKey.init type (some k)
  childlist : q'.childlist = q.childlist
  evalSz : q'.evalSz = q.evalSz
  evalValSz : q'.evalValSz = q.evalValSz
  /-- The first meta. -/
  first : ∃ m, q'.metalist = m :: metasAfterKey true q.metalist ∧ q'.metaAt 1 = some m ∧ m.tag = 1 ∧ m.type = type ∧
    m.val = k ∧ m.evalSz = metaSize 1 type (some k) ∧ All Accurate m
  /-- What has been added. -/
  grown : metaSize 1 type (some k) + ((metasAfterKey true q.metalist).map (·.evalSz)).sum =
    (q.metalist.map (·.evalSz)).sum + d

theorem metaVal_key (hk : IsKey type k) : metaVal type (some k) = k :=
  @pick_of_norm ⟨1, type, k⟩ (congrArg (PbField.mk 1 type) hk.1)

/-- The meta of the key is the first, or there is none. -/
theorem KeyFits.metaAt (h : KeyFits type k q) (hs : Shape q) : match q.metaAt 1 with
    | some m => ∃ ms, q.metalist = m :: ms ∧ m.tag = 1
    | none => metasAfterKey true q.metalist = q.metalist := by
  cases hm : q.metaAt 1 with
  | some m =>
    obtain ⟨hmem, htag⟩ := lastMeta_mem (h.back.metaAt hs hm)
    have hfirst := h.first
    cases hl : q.metalist with
    | nil => rw [hl] at hmem; exact absurd hmem List.not_mem_nil
    | cons x ms =>
      rw [hl] at hmem hfirst
      rcases List.mem_cons.mp hmem with rfl | hmem
      · exact ⟨ms, rfl, htag⟩
      · exact absurd htag (hfirst m hmem)
  | none =>
    cases hl : q.metalist with
    | nil => rfl
    | cons x ms =>
      have hx : x.tag ≠ 1 := fun htag => by
        have hlead := h.lead x (by rw [hl]; rfl) htag
        rw [hm] at hlead
        cases hlead
      simp [metasAfterKey, hx]

/-- The node is as long as all its metas and children. -/
theorem KeyFits.sum (h : KeyFits type k q) :
    q.keyLength + ((metasAfterKey q.hasKey q.metalist).map (·.evalSz)).sum = (q.metalist.map (·.evalSz)).sum := by
  cases hhas : q.hasKey with
  | false =>
    have hafter : metasAfterKey false q.metalist = q.metalist := by cases q.metalist <;> rfl
    rw [hafter, keyLength, hhas]
    simp
  | true =>
    obtain ⟨m, hm, htag, hsz⟩ := h.key hhas
    obtain ⟨ms, hl⟩ : ∃ ms, q.metalist = m :: ms := by
      cases hl : q.metalist with
      | nil => rw [hl] at hm; cases hm
      | cons x ms => rw [hl] at hm; cases hm; exact ⟨ms, rfl⟩
    rw [hl, metasAfterKey, if_pos (by simp [htag]), List.map_cons, List.sum_cons, hsz]

theorem KeyLed.hasKey {d : ℤ} (h : KeyLed q q' type k d) (hno : q.noKey = false) (hk : IsKey type k)
    (hshort : type = .string → k.str.length < 2 ^ 16) : q'.hasKey = true := by
  rw [KnvNode.hasKey, h.noKey, hno, h.key]
  simpa using bytes_ne_nil hk hshort

theorem KeyLed.addsUp {d : ℤ} (h : KeyLed q q' type k d) (hfit : KeyFits type k q) (hno : q.noKey = false)
    (hk : IsKey type k) :
    AddsUp d q' := by
  have hhas := h.hasKey hno hk hfit.short
  have hlen : (q'.keyLength : ℤ) = metaSize 1 type (some k) := by
    rw [keyLength, if_pos hhas, h.key, KnvKey.type_init, getValue_key hk hfit.short, metaSize, metaVal_key hk]
  obtain ⟨m, hl, -, htag, -⟩ := h.first
  have hafter : metasAfterKey true q'.metalist = metasAfterKey true q.metalist := by
    rw [hl, metasAfterKey, if_pos (by simp [htag])]
  constructor
  · have hval := hfit.back.sizes.val
    have hsum := hfit.sum
    have hgrown := h.grown
    rw [hhas, hafter, hlen, h.evalValSz, h.childlist]
    omega
  · rw [h.evalSz, h.evalValSz, h.tag]
    exact hfit.back.sizes.sz

end KnvNode

open KnvNode

end KnvProto
