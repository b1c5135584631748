import Mathlib.Data.List.Find
import KnvProto.Library.Chain
import KnvProto.Node.Key

/-!
# The index of children

`KnvHt`: the hash table of a node's children by tag and key, with chains linked
through the children themselves, and the two rebuilds 32 → 256 → 8192.

## The model

A child is named by its address, a number that is never used again; a chain is
the list of addresses that following `ht_next` from the bucket's head meets. A
bucket whose bit in the bitmap is clear is never read, and is the empty chain
here. What the table reads of a child — its current tag and the bytes of its
key — is given by a function `look` from addresses; a child that has been
released has tag `0` and no key, as `ReleaseObject` leaves it, and stays in the
chains it was in.
-/

namespace KnvProto

open Varint Chain

/-- The last bytes of `get_keyhash`, fewer than four. -/
def keyHashTail (t : UInt32) : Bytes → UInt32
  | [] => t
  | b :: rest => keyHashTail (t + b.toUInt32 <<< UInt32.ofNat (rest.length * 8)) rest

/-- `get_keyhash` before the mask: the tag and the words of the key, added up. -/
def keyHash (t : UInt32) : Bytes → UInt32
  | a :: b :: c :: d :: rest => keyHash (t + UInt32.ofNat (ofLeBytes [a, b, c, d])) rest
  | rest => keyHashTail t rest

/-- `get_keyhash(t, k, len, sz)`. -/
def getKeyhash (t : UInt32) (k : Bytes) (sz : ℕ) : ℕ := (keyHash t k).toNat &&& (sz - 1)

theorem getKeyhash_lt (t : UInt32) (k : Bytes) {sz : ℕ} (h : 0 < sz) : getKeyhash t k sz < sz := by
  have : getKeyhash t k sz ≤ sz - 1 := Nat.and_le_right
  omega

/-- What the table reads of the node at an address: its tag, and the bytes of its key. -/
abbrev Look := ℕ → UInt32 × Bytes

/-- `KnvHt`. -/
structure KnvHt where
  /-- `nr`. -/
  nr : ℕ := 0
  /-- `sz`. -/
  sz : ℕ := 32
  /-- The chains. -/
  chain : Chains ℕ := fun _ => []

namespace KnvHt

/-- `KnvHt::get`: the first node of the chain with this tag and key. -/
def get (ht : KnvHt) (look : Look) (tag : UInt32) (k : Bytes) : Option ℕ :=
  (ht.chain (getKeyhash tag k ht.sz)).find? fun c => look c = (tag, k)

/-- The nodes from the first match of `KnvHt::get` on, as `ht_next` leads. -/
def getChain (ht : KnvHt) (look : Look) (tag : UInt32) (k : Bytes) : List ℕ :=
  (ht.chain (getKeyhash tag k ht.sz)).dropWhile fun c => look c ≠ (tag, k)

/-- The bucket of the node at an address, for a table of size `sz`. -/
def bucketOf (look : Look) (sz : ℕ) (c : ℕ) : ℕ := getKeyhash (look c).1 (look c).2 sz

/-- `KnvHt::increase`: the old chains are walked bucket by bucket, and every node is
put at the head of its new chain. -/
def increase (ht : KnvHt) (look : Look) : KnvHt :=
  if 8192 ≤ ht.sz then ht
  else
    let newSz := if ht.sz < 256 then 256 else 8192
    let all := entries ht.chain ht.sz
    { nr := all.length, sz := newSz, chain := relink (bucketOf look newSz) all }

/-- The table `KnvHt::put` puts into: the old one, or a larger one. -/
def room (ht : KnvHt) (look : Look) : KnvHt := if ht.sz < ht.nr + 1 then ht.increase look else ht

/-- `KnvHt::put(n)`, of the node at address `c`. -/
def put (ht : KnvHt) (look : Look) (c : ℕ) : KnvHt :=
  let ht := ht.room look
  { ht with nr := ht.nr + 1, chain := link ht.chain (bucketOf look ht.sz c) c }

/-- `KnvHt::remove(node, pos)`, with `pos` in bucket `hi`. -/
def removePos (ht : KnvHt) (c hi : ℕ) : KnvHt := { ht with nr := ht.nr - 1, chain := unlink ht.chain hi c }

/-- `KnvHt::remove(node)`, of a node with this tag and key; without effect when the
node is not in its chain. -/
def remove (ht : KnvHt) (c : ℕ) (tag : UInt32) (k : Bytes) : KnvHt :=
  let hi := getKeyhash tag k ht.sz
  if c ∈ ht.chain hi then ht.removePos c hi else ht

/-- The table indexes exactly the nodes at the addresses `S`. -/
structure Agrees (ht : KnvHt) (look : Look) (S : List ℕ) : Prop where
  /-- Every address of `S`, in the bucket of its tag and key, and nothing else. -/
  chain : Chain.Agrees ht.chain (bucketOf look ht.sz) S
  /-- `nr` counts them. -/
  nr : ht.nr = S.length
  /-- There is a bucket. -/
  sz : 0 < ht.sz

variable {ht : KnvHt} {look look' : Look} {S S' : List ℕ}

theorem agrees_empty (look : Look) : Agrees {} look [] := ⟨agrees_nil, rfl, by decide⟩

theorem Agrees.perm (H : Agrees ht look S) (h : S.Perm S') : Agrees ht look S' :=
  ⟨H.chain.perm h, H.nr.trans h.length_eq, H.sz⟩

/-- Only what the table reads of its own nodes matters. -/
theorem Agrees.congr (H : Agrees ht look S) (h : ∀ c ∈ S, look c = look' c) : Agrees ht look' S :=
  ⟨H.chain.congr fun c hc => by rw [bucketOf, bucketOf, h c hc], H.nr, H.sz⟩

/-- A rebuild keeps the agreement. -/
theorem Agrees.increase (H : Agrees ht look S) : Agrees (ht.increase look) look S := by
  unfold KnvHt.increase
  split
  · exact H
  · have hperm : (entries ht.chain ht.sz).Perm S :=
      H.chain.entries_perm fun c _ => getKeyhash_lt _ _ H.sz
    refine ⟨(agrees_relink _ _).perm hperm, hperm.length_eq, ?_⟩
    simp only
    split <;> decide

theorem Agrees.room (H : Agrees ht look S) : Agrees (ht.room look) look S := by
  unfold KnvHt.room
  split
  · exact H.increase
  · exact H

/-- Putting a node adds it. -/
theorem Agrees.put (H : Agrees ht look S) (c : ℕ) : Agrees (ht.put look c) look (c :: S) := by
  have h := H.room
  exact ⟨h.chain.link c, by simp [KnvHt.put, h.nr], h.sz⟩

theorem Agrees.removePos (H : Agrees ht look S) {c : ℕ} (hc : c ∈ S) :
    Agrees (ht.removePos c (bucketOf look ht.sz c)) look (S.erase c) :=
  ⟨H.chain.unlink c, by simp [KnvHt.removePos, H.nr, List.length_erase_of_mem hc], H.sz⟩

/-- Removing a node under its current tag and key removes it. -/
theorem Agrees.remove (H : Agrees ht look S) {c : ℕ} (hc : c ∈ S) :
    Agrees (ht.remove c (look c).1 (look c).2) look (S.erase c) := by
  have hmem : c ∈ ht.chain (bucketOf look ht.sz c) := H.chain.mem.mpr ⟨hc, rfl⟩
  rw [KnvHt.remove, if_pos (show c ∈ ht.chain (getKeyhash (look c).1 (look c).2 ht.sz) from hmem)]
  exact H.removePos hc

/-- What `get` returns is indexed, and has the tag and key asked for. -/
theorem Agrees.of_get (H : Agrees ht look S) {tag : UInt32} {k : Bytes} {c : ℕ}
    (h : ht.get look tag k = some c) : c ∈ S ∧ look c = (tag, k) := by
  have hmem := List.mem_of_find?_eq_some h
  have hmatch := List.find?_some h
  exact ⟨(H.chain.mem.mp hmem).1, of_decide_eq_true hmatch⟩

/-- `get` finds a node exactly when one with the tag and key is indexed. -/
theorem Agrees.get_eq_none_iff (H : Agrees ht look S) {tag : UInt32} {k : Bytes} :
    ht.get look tag k = none ↔ ∀ c ∈ S, look c ≠ (tag, k) := by
  rw [KnvHt.get, List.find?_eq_none]
  constructor
  · intro h c hc heq
    have hb : bucketOf look ht.sz c = getKeyhash tag k ht.sz := by rw [bucketOf, heq]
    exact h c (H.chain.mem.mpr ⟨hc, hb⟩) (decide_eq_true heq)
  · intro h c hc heq
    exact h c (H.chain.mem.mp hc).1 (of_decide_eq_true heq)

/-- What has been put into the table is at the head of its bucket. -/
theorem chain_put (ht : KnvHt) (look : Look) (a : ℕ) :
    ∃ l, (ht.put look a).chain (getKeyhash (look a).1 (look a).2 (ht.put look a).sz) = a :: l := by
  refine ⟨(ht.room look).chain (bucketOf look (ht.room look).sz a), ?_⟩
  simp only [put, link, bucketOf, if_true]

/-- A rebuild reads nothing but what is in the table. -/
theorem Agrees.room_congr (H : Agrees ht look S) (h : ∀ c ∈ S, look c = look' c) : ht.room look' = ht.room look := by
  unfold KnvHt.room
  split
  · unfold KnvHt.increase
    split
    · rfl
    · have hmem : ∀ c ∈ entries ht.chain ht.sz, look c = look' c := fun c hc => by
        obtain ⟨b, -, hb⟩ := List.mem_flatMap.mp hc
        exact h c (H.chain.mem.mp hb).1
      have hrelink : ∀ sz, relink (bucketOf look' sz) (entries ht.chain ht.sz) =
          relink (bucketOf look sz) (entries ht.chain ht.sz) := by
        intro sz
        funext b
        rw [relink_apply, relink_apply]
        refine congrArg List.reverse (List.filter_congr fun c hc => ?_)
        rw [bucketOf, bucketOf, hmem c hc]
      simp only [hrelink]
  · rfl

/-- The node at an address is in the chain of a tag and a key. -/
structure InChain (ht : KnvHt) (tag : UInt32) (k : Bytes) (a : ℕ) : Prop where
  sz : 0 < ht.sz
  mem : a ∈ ht.chain (getKeyhash tag k ht.sz)

variable {tag : UInt32} {k : Bytes} {a c : ℕ}

theorem InChain.increase (h : InChain ht tag k a) (ha : look a = (tag, k)) : InChain (ht.increase look) tag k a := by
  unfold KnvHt.increase
  split
  · exact h
  · have hall : a ∈ entries ht.chain ht.sz := by
      rw [entries, List.mem_flatMap]
      exact ⟨_, List.mem_range.mpr (getKeyhash_lt tag k h.sz), h.mem⟩
    refine ⟨?_, ?_⟩
    · simp only
      split <;> decide
    · simp only
      rw [relink_apply, List.mem_reverse, List.mem_filter]
      exact ⟨hall, decide_eq_true (by rw [bucketOf, ha])⟩

theorem InChain.room (h : InChain ht tag k a) (ha : look a = (tag, k)) : InChain (ht.room look) tag k a := by
  unfold KnvHt.room
  split
  · exact h.increase ha
  · exact h

/-- It stays when another node is put. -/
theorem InChain.put (h : InChain ht tag k a) (ha : look a = (tag, k)) (c : ℕ) : InChain (ht.put look c) tag k a := by
  have hroom := h.room ha
  refine ⟨hroom.sz, ?_⟩
  simp only [KnvHt.put, link]
  split
  · next hb => exact List.mem_cons_of_mem _ (hb ▸ hroom.mem)
  · exact hroom.mem

/-- It stays when another node is removed. -/
theorem InChain.remove (h : InChain ht tag k a) (hne : c ≠ a) (tag' : UInt32) (k' : Bytes) :
    InChain (ht.remove c tag' k') tag k a := by
  unfold KnvHt.remove
  simp only
  split
  · refine ⟨h.sz, ?_⟩
    simp only [KnvHt.removePos, unlink]
    split
    · next hb => exact (List.mem_erase_of_ne hne.symm).mpr (hb ▸ h.mem)
    · exact h.mem
  · exact h

end KnvHt

end KnvProto
