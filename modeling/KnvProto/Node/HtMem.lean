import Mathlib.Logic.Function.Basic
import Mathlib.Data.Fintype.EquivFin
import Mathlib.Logic.Relation
import KnvProto.Library.Threaded
import KnvProto.Node.Ht

/-!
# The index in memory

`KnvHt` as it lies in memory: the buckets, the bitmap that says which of them are
initialised, and the links `ht_next` of the nodes themselves, which every operation
changes in place.

## The model

A node is its address. What `malloc` leaves in the buckets of a larger table is given with
the call, and is never read: neither the bitmap of the new table nor that of the old one
has a bit for it. `nr` is a machine integer, and wraps. A loop is given the number of turns
that it may take, and has no result when they are not enough.

`represents_put`, `represents_remove`, `represents_removePos` and `getPos_spec` say that the
operations are those of `KnvProto.Node.Ht` on the lists that the links lead to, and always end.
`faithful_iff` is what follows for every use: the index is a multimap of the nodes inside,
and `nr` counts them as long as there are fewer than 2^31.
-/

namespace KnvProto

open Chain Linking

/-- `KnvHt::HtPos`: the place of a link. -/
inductive HtPos where
  /-- `&ht[hi]`. -/
  | bucket (hi : ℕ)
  /-- `&c->ht_next`. -/
  | htNext (c : ℕ)
  deriving DecidableEq

/-- `KnvHt`, and the `ht_next` of all nodes. -/
structure KnvHtMem where
  /-- `nr`. -/
  nr : Int32 := 0
  /-- `sz`. -/
  sz : ℕ := 32
  /-- `bm`. -/
  bm : ℕ → Bool := fun _ => false
  /-- `ht`. A bucket whose bit in `bm` is clear is not initialised. -/
  ht : ℕ → Option ℕ
  /-- `ht_next` of the node at an address. -/
  htNext : ℕ → Option ℕ

namespace KnvHtMem

/-- `*pos`. -/
def read (m : KnvHtMem) : HtPos → Option ℕ
  | .bucket hi => m.ht hi
  | .htNext c => m.htNext c

/-- `*pos = v`. -/
def write (m : KnvHtMem) (v : Option ℕ) : HtPos → KnvHtMem
  | .bucket hi => { m with ht := Function.update m.ht hi v }
  | .htNext c => { m with htNext := Function.update m.htNext c v }

/-- The loop of `get(tag, k, klen)`. -/
def getLoop (m : KnvHtMem) (look : Look) (tag : UInt32) (k : Bytes) : ℕ → Option ℕ → Option (Option ℕ)
  | 0, _ => none
  | _ + 1, none => some none
  | turns + 1, some c => if look c = (tag, k) then some (some c) else m.getLoop look tag k turns (m.htNext c)

/-- `get(tag, k, klen)`. -/
def get (m : KnvHtMem) (turns : ℕ) (look : Look) (tag : UInt32) (k : Bytes) : Option (Option ℕ) :=
  let hi := getKeyhash tag k m.sz
  if m.bm hi then m.getLoop look tag k turns (m.ht hi) else some none

/-- The loop of `get(tag, k, klen, pos)`. -/
def getPosLoop (m : KnvHtMem) (look : Look) (tag : UInt32) (k : Bytes) : ℕ → HtPos → Option (Option (ℕ × HtPos))
  | 0, _ => none
  | turns + 1, htPos =>
    match m.read htPos with
    | none => some none
    | some c => if look c = (tag, k) then some (some (c, htPos)) else m.getPosLoop look tag k turns (.htNext c)

/-- `get(tag, k, klen, pos)`. -/
def getPos (m : KnvHtMem) (turns : ℕ) (look : Look) (tag : UInt32) (k : Bytes) : Option (Option (ℕ × HtPos)) :=
  let hi := getKeyhash tag k m.sz
  if m.bm hi then m.getPosLoop look tag k turns (.bucket hi) else some none

/-- What `put` and a turn of `increase` do with a node: it becomes the first one of its bucket. -/
def linkNode (look : Look) (c : ℕ) (m : KnvHtMem) : KnvHtMem :=
  let hi := KnvHt.bucketOf look m.sz c
  if !m.bm hi then
    { m with
      bm := Function.update m.bm hi true, ht := Function.update m.ht hi (some c)
      htNext := Function.update m.htNext c none, nr := m.nr + 1 }
  else { m with ht := Function.update m.ht hi (some c), htNext := Function.update m.htNext c (m.ht hi), nr := m.nr + 1 }

/-- The inner loop of `increase`, which walks an old bucket. -/
def moveChain (look : Look) : ℕ → Option ℕ → KnvHtMem → Option KnvHtMem
  | 0, _, _ => none
  | _ + 1, none, new => some new
  | turns + 1, some c, new =>
    let hnext := new.htNext c
    moveChain look turns hnext (new.linkNode look c)

/-- The outer loop of `increase`, over the old buckets. -/
def moveBuckets (m : KnvHtMem) (look : Look) (turns : ℕ) : List ℕ → KnvHtMem → Option KnvHtMem
  | [], new => some new
  | i :: is, new =>
    if m.bm i then (moveChain look turns (m.ht i) new).bind (m.moveBuckets look turns is)
    else m.moveBuckets look turns is new

/-- `increase`. `mem` is what `UcMemManager::Alloc` returns: the buckets of a block, or `NULL`. -/
def increase (m : KnvHtMem) (turns : ℕ) (mem : Option (ℕ → Option ℕ)) (look : Look) : Option (Except String KnvHtMem) :=
  if 8192 ≤ m.sz then some (.ok m)
  else
    let newSz := if m.sz < 256 then 256 else 8192
    match mem with
    | none => some (.error "UcMemManager::Alloc failed")
    | some newHt => (m.moveBuckets look turns (List.range m.sz) { sz := newSz, ht := newHt, htNext := m.htNext }).map .ok

/-- `put(n)`. -/
def put (m : KnvHtMem) (turns : ℕ) (mem : Option (ℕ → Option ℕ)) (look : Look) (c : ℕ) : Option (Except String KnvHtMem) :=
  if Int32.ofNat m.sz < m.nr + 1 then (m.increase turns mem look).map (·.map (linkNode look c))
  else some (.ok (m.linkNode look c))

/-- `remove(node, pos)`. -/
def removePos (m : KnvHtMem) (node : ℕ) (pos : HtPos) : KnvHtMem :=
  let m := m.write (m.htNext node) pos
  { m with nr := m.nr - 1 }

/-- The loop of `remove(node)`. -/
def removeLoop (m : KnvHtMem) (node hi : ℕ) : ℕ → Option ℕ → ℕ → Option (Except String KnvHtMem)
  | 0, _, _ => none
  | turns + 1, prev, c =>
    if c = node then
      let m : KnvHtMem := match prev with
        | some p => { m with htNext := Function.update m.htNext p (m.htNext c) }
        | none => { m with ht := Function.update m.ht hi (m.htNext c) }
      some (.ok { m with nr := m.nr - 1 })
    else
      match m.htNext c with
      | some c' => m.removeLoop node hi turns (some c) c'
      | none => some (.error "tag/key not found in ht")

/-- `remove(node)`. -/
def remove (m : KnvHtMem) (turns : ℕ) (look : Look) (node : ℕ) : Option (Except String KnvHtMem) :=
  let hi := KnvHt.bucketOf look m.sz node
  match m.bm hi, m.ht hi with
  | true, some c => m.removeLoop node hi turns none c
  | _, _ => some (.error "tag/key not found in ht")

end KnvHtMem

/-! ### The lists that the links lead to -/

/-- The head of a bucket: none, if it is not initialised. -/
def KnvHtMem.head (m : KnvHtMem) (b : ℕ) : Option ℕ := if m.bm b then m.ht b else none

/-- The links lead to the chains of a table. -/
structure Represents (m : KnvHtMem) (t : KnvHt) : Prop where
  /-- `sz`. -/
  sz : m.sz = t.sz
  /-- `nr`, which wraps. -/
  nr : m.nr = Int32.ofNat t.nr
  /-- A bucket. -/
  chain : ∀ b, Threaded m.htNext (m.head b) (t.chain b)

namespace KnvHtMem

variable {m : KnvHtMem} {t : KnvHt} {look : Look} {S : List ℕ}

section LinkNode

variable (look : Look) (c : ℕ) (m : KnvHtMem)

@[simp] theorem linkNode_sz : (m.linkNode look c).sz = m.sz := by
  cases hbit : m.bm (KnvHt.bucketOf look m.sz c) <;> simp [linkNode, hbit]

@[simp] theorem linkNode_nr : (m.linkNode look c).nr = m.nr + 1 := by
  cases hbit : m.bm (KnvHt.bucketOf look m.sz c) <;> simp [linkNode, hbit]

/-- The node leads to what was the first one of the bucket. -/
theorem linkNode_htNext :
    (m.linkNode look c).htNext = Function.update m.htNext c (m.head (KnvHt.bucketOf look m.sz c)) := by
  cases hbit : m.bm (KnvHt.bucketOf look m.sz c) <;> simp [linkNode, head, hbit]

theorem linkNode_head :
    (m.linkNode look c).head = Function.update m.head (KnvHt.bucketOf look m.sz c) (some c) := by
  funext b
  by_cases hb : b = KnvHt.bucketOf look m.sz c
  · subst hb
    cases hbit : m.bm (KnvHt.bucketOf look m.sz c) <;> simp [linkNode, head, hbit]
  · rw [Function.update_of_ne hb]
    cases hbit : m.bm (KnvHt.bucketOf look m.sz c) <;> simp [linkNode, head, hbit, Function.update_of_ne hb]

end LinkNode

/-- A node that is in no chain becomes the first one of its bucket. -/
theorem represents_linkNode {c : ℕ} (h : Represents m t) (hc : ∀ b, c ∉ t.chain b) :
    Represents (m.linkNode look c)
      { t with nr := t.nr + 1, chain := link t.chain (KnvHt.bucketOf look t.sz c) c } := by
  obtain ⟨hsz, hnr, hchain⟩ := h
  have hkeep : ∀ v b, Threaded (Function.update m.htNext c v) (m.head b) (t.chain b) := by
    intro v b
    refine (hchain b).congr fun a ha => Function.update_of_ne ?_ ..
    rintro rfl
    exact hc b ha
  refine ⟨?_, ?_, fun b => ?_⟩
  · rw [linkNode_sz, hsz]
  · simp only [linkNode_nr, hnr, Int32.ofNat_add, Int32.reduceOfNat]
  · rw [linkNode_htNext, linkNode_head, hsz]
    simp only [link]
    by_cases hb : b = KnvHt.bucketOf look t.sz c
    · subst hb
      rw [Function.update_self, if_pos rfl]
      refine .cons ?_
      rw [Function.update_self]
      exact hkeep _ _
    · rw [Function.update_of_ne hb, if_neg hb]
      exact hkeep _ b

/-! ### Growth -/

/-- A new table into which the nodes of a list have been moved. -/
structure Moved (look : Look) (newSz : ℕ) (htNext : ℕ → Option ℕ) (xs : List ℕ) (new : KnvHtMem) : Prop where
  /-- They are what it holds. -/
  represents : Represents new ⟨xs.length, newSz, relink (KnvHt.bucketOf look newSz) xs⟩
  /-- The links of the others are as they were. -/
  kept : ∀ a, a ∉ xs → new.htNext a = htNext a

variable {newSz : ℕ} {htNext : ℕ → Option ℕ} {xs : List ℕ} {new : KnvHtMem}

theorem mem_of_mem_relink {a b : ℕ} (h : a ∈ relink (KnvHt.bucketOf look newSz) xs b) : a ∈ xs := by
  rw [relink_apply, List.mem_reverse, List.mem_filter] at h
  exact h.1

/-- A turn of the inner loop. -/
theorem Moved.linkNode {c : ℕ} (h : Moved look newSz htNext xs new) (hc : c ∉ xs) :
    Moved look newSz htNext (xs ++ [c]) (new.linkNode look c) := by
  refine ⟨?_, fun a ha => ?_⟩
  · have hrep := @represents_linkNode _ _ look c h.represents fun b hb => hc (mem_of_mem_relink hb)
    have hrelink : relink (KnvHt.bucketOf look newSz) (xs ++ [c]) =
        link (relink (KnvHt.bucketOf look newSz) xs) (KnvHt.bucketOf look newSz c) c := by
      rw [relink, List.foldl_append]
      rfl
    rw [List.length_append, hrelink]
    exact hrep
  · rw [List.mem_append, not_or, List.mem_singleton] at ha
    rw [linkNode_htNext, Function.update_of_ne ha.2]
    exact h.kept a ha.1

/-- The inner loop moves the nodes of an old bucket, in their order. -/
theorem Moved.moveChain {head : Option ℕ} {l : List ℕ} (hl : Threaded htNext head l) :
    ∀ {turns : ℕ} {xs : List ℕ} {new : KnvHtMem}, Moved look newSz htNext xs new → (∀ a ∈ l, a ∉ xs) →
      l.length < turns → ∃ new', KnvHtMem.moveChain look turns head new = some new' ∧
        Moved look newSz htNext (xs ++ l) new' := by
  induction hl with
  | nil =>
    intro turns xs new h _ hturns
    obtain ⟨turns, rfl⟩ := Nat.exists_eq_succ_of_ne_zero (Nat.ne_of_gt hturns)
    rw [List.append_nil]
    exact ⟨new, rfl, h⟩
  | @cons a l hl ih =>
    intro turns xs new h hnot hturns
    obtain ⟨turns, rfl⟩ := Nat.exists_eq_succ_of_ne_zero (Nat.ne_of_gt (Nat.zero_lt_of_lt hturns))
    have hxs := hnot a (List.mem_cons_self ..)
    have hal : a ∉ l := (List.nodup_cons.mp (Threaded.nodup (.cons hl))).1
    have hnot' : ∀ b ∈ l, b ∉ xs ++ [a] := by
      intro b hb hmem
      rcases List.mem_append.mp hmem with hmem | hmem
      · exact hnot b (List.mem_cons_of_mem _ hb) hmem
      · rw [List.mem_singleton.mp hmem] at hb
        exact hal hb
    obtain ⟨new', hmove, h'⟩ := ih (h.linkNode hxs) hnot' (Nat.lt_of_succ_lt_succ hturns)
    refine ⟨new', ?_, ?_⟩
    · rw [KnvHtMem.moveChain, h.kept a hxs]
      exact hmove
    · rw [List.append_assoc] at h'
      exact h'

/-- The outer loop moves the nodes of the old buckets. -/
theorem Moved.moveBuckets (hrep : Represents m t) {turns : ℕ} : ∀ {is : List ℕ} {xs : List ℕ} {new : KnvHtMem},
    Moved look newSz m.htNext xs new → (xs ++ is.flatMap t.chain).Nodup →
      (∀ b, (t.chain b).length < turns) → ∃ new', m.moveBuckets look turns is new = some new' ∧
        Moved look newSz m.htNext (xs ++ is.flatMap t.chain) new' := by
  intro is
  induction is with
  | nil =>
    intro xs new h _ _
    rw [List.flatMap_nil, List.append_nil]
    exact ⟨new, rfl, h⟩
  | cons i is ih =>
    intro xs new h hnd hturns
    rw [List.flatMap_cons, ← List.append_assoc] at hnd ⊢
    have hchain := hrep.chain i
    rw [KnvHtMem.moveBuckets]
    cases hbit : m.bm i with
    | false =>
      have hnil : t.chain i = [] := by simpa [KnvHtMem.head, hbit] using hchain
      rw [hnil, List.append_nil] at hnd ⊢
      exact ih h hnd hturns
    | true =>
      rw [KnvHtMem.head, if_pos hbit] at hchain
      have hnot : ∀ a ∈ t.chain i, a ∉ xs := fun a ha hxs =>
        (List.nodup_append.mp (List.nodup_append.mp hnd).1).2.2 a hxs a ha rfl
      obtain ⟨new₁, hmove, h₁⟩ := h.moveChain hchain hnot (hturns i)
      obtain ⟨new', hmoves, h'⟩ := ih h₁ hnd hturns
      refine ⟨new', ?_, h'⟩
      rw [if_pos rfl, hmove]
      exact hmoves

theorem length_chain_le (hagree : t.Agrees look S) (b : ℕ) : (t.chain b).length ≤ S.length := by
  rw [(hagree.chain b).length_eq]
  exact List.length_filter_le ..

/-- **`increase`** ends, and makes the larger table, if there is memory for it. -/
theorem represents_increase (h : Represents m t) (hagree : t.Agrees look S) (hnd : S.Nodup) {turns : ℕ}
    (hturns : S.length < turns) (mem : Option (ℕ → Option ℕ)) :
    ∃ r, m.increase turns mem look = some r ∧ (∀ m', r = .ok m' → Represents m' (t.increase look)) ∧
      (mem.isSome = true → ∃ m', r = .ok m') := by
  unfold KnvHtMem.increase KnvHt.increase
  rw [h.sz]
  by_cases hsz : 8192 ≤ t.sz
  · rw [if_pos hsz, if_pos hsz]
    refine ⟨.ok m, rfl, ?_, fun _ => ⟨m, rfl⟩⟩
    rintro m' ⟨⟩
    exact h
  rw [if_neg hsz, if_neg hsz]
  cases mem with
  | none => exact ⟨.error _, rfl, nofun, nofun⟩
  | some newHt =>
    have hstart : Moved look (if t.sz < 256 then 256 else 8192) m.htNext []
        { sz := if t.sz < 256 then 256 else 8192, ht := newHt, htNext := m.htNext } :=
      ⟨⟨rfl, rfl, fun b => .nil⟩, fun _ _ => rfl⟩
    have hperm : (entries t.chain t.sz).Perm S := hagree.chain.entries_perm fun c _ => getKeyhash_lt _ _ hagree.sz
    obtain ⟨new', hmoves, hnew⟩ := hstart.moveBuckets h (hperm.nodup_iff.mpr hnd)
      fun b => Nat.lt_of_le_of_lt (length_chain_le hagree b) hturns
    refine ⟨.ok new', ?_, ?_, fun _ => ⟨new', rfl⟩⟩
    · simp only [hmoves, Option.map_some]
    · rintro m' ⟨⟩
      exact hnew.represents

/-- Before the last growth a table has a bucket for every node. -/
def Roomy (t : KnvHt) : Prop := t.sz < 8192 → t.nr ≤ t.sz

theorem roomy_put (hagree : t.Agrees look S) (h : Roomy t) (c : ℕ) : Roomy (t.put look c) := by
  have hnr : (t.room look).nr = t.nr := hagree.room.nr.trans hagree.nr.symm
  intro hsz
  simp only [KnvHt.put] at hsz ⊢
  rw [hnr]
  unfold KnvHt.room at hsz ⊢
  by_cases hcond : t.sz < t.nr + 1
  · rw [if_pos hcond] at hsz ⊢
    unfold KnvHt.increase at hsz ⊢
    by_cases hlast : 8192 ≤ t.sz
    · rw [if_pos hlast] at hsz
      exact absurd hlast (Nat.not_le.mpr hsz)
    · rw [if_neg hlast] at hsz ⊢
      have hle := h (Nat.not_le.mp hlast)
      simp only at hsz ⊢
      by_cases hsmall : t.sz < 256
      · rw [if_pos hsmall]
        omega
      · rw [if_neg hsmall] at hsz
        exact absurd hsz (Nat.lt_irrefl _)
  · rw [if_neg hcond]
    exact Nat.not_lt.mp hcond

/-- **`put`** ends, and puts the node into the table, if there is memory. -/
theorem represents_put (h : Represents m t) (hagree : t.Agrees look S) (hnd : S.Nodup) (hroomy : Roomy t) {c : ℕ}
    (hc : c ∉ S) {turns : ℕ} (hturns : S.length < turns) (mem : Option (ℕ → Option ℕ)) :
    ∃ r, m.put turns mem look c = some r ∧ (∀ m', r = .ok m' → Represents m' (t.put look c)) ∧
      (mem.isSome = true → ∃ m', r = .ok m') := by
  obtain ⟨r, hr, hrep, hok⟩ := represents_increase h hagree hnd hturns mem
  have hlink : ∀ {m' : KnvHtMem}, Represents m' (t.room look) → Represents (m'.linkNode look c) (t.put look c) :=
    fun h' => represents_linkNode h' fun b hb => hc (hagree.room.chain.mem.mp hb).1
  -- the machine compares as the numbers do, where the outcome matters
  have hroom : (Int32.ofNat m.sz < m.nr + 1 → t.room look = t.increase look) ∧
      (¬Int32.ofNat m.sz < m.nr + 1 → t.room look = t) := by
    by_cases hsz : 8192 ≤ t.sz
    · have hsame : t.increase look = t := if_pos hsz
      rw [KnvHt.room, hsame, ite_self]
      exact ⟨fun _ => rfl, fun _ => rfl⟩
    · have hnr := hroomy (Nat.not_le.mp hsz)
      have hlt : Int32.ofNat m.sz < m.nr + 1 ↔ t.sz < t.nr + 1 := by
        have hone : Int32.ofNat t.nr + 1 = Int32.ofNat (t.nr + 1) := by rw [Int32.ofNat_add]; rfl
        rw [h.sz, h.nr, hone]
        exact Int32.ofNat_lt_iff_lt (by omega) (by omega)
      rw [hlt]
      exact ⟨fun hcond => if_pos hcond, fun hcond => if_neg hcond⟩
  unfold KnvHtMem.put
  split
  · next hcond =>
    refine ⟨r.map (KnvHtMem.linkNode look c), by rw [hr]; rfl, ?_, fun hmem => ?_⟩
    · intro m' hm'
      cases r with
      | error e => cases hm'
      | ok m₁ =>
        cases hm'
        exact hlink (hroom.1 hcond ▸ hrep m₁ rfl)
    · obtain ⟨m₁, rfl⟩ := hok hmem
      exact ⟨_, rfl⟩
  · next hcond =>
    refine ⟨.ok (m.linkNode look c), rfl, ?_, fun _ => ⟨_, rfl⟩⟩
    rintro m' ⟨⟩
    exact hlink ((hroom.2 hcond).symm ▸ h)

/-! ### Search -/

/-- The place of the link to what comes after some nodes of a chain. -/
def posAfter (pos : HtPos) : List ℕ → HtPos
  | [] => pos
  | a :: pre => posAfter (.htNext a) pre

theorem posAfter_concat (pos : HtPos) (pre : List ℕ) (p : ℕ) : posAfter pos (pre ++ [p]) = .htNext p := by
  induction pre generalizing pos with
  | nil => rfl
  | cons a pre ih => exact ih _

theorem getLoop_spec {tag : UInt32} {k : Bytes} {head : Option ℕ} {l : List ℕ} (hl : Threaded m.htNext head l) :
    ∀ {turns : ℕ}, l.length < turns → m.getLoop look tag k turns head = some (l.find? fun c => look c = (tag, k)) := by
  induction hl with
  | nil =>
    intro turns hturns
    obtain ⟨turns, rfl⟩ := Nat.exists_eq_succ_of_ne_zero (Nat.ne_of_gt hturns)
    rfl
  | @cons a l _ ih =>
    intro turns hturns
    obtain ⟨turns, rfl⟩ := Nat.exists_eq_succ_of_ne_zero (Nat.ne_of_gt (Nat.zero_lt_of_lt hturns))
    rw [getLoop, List.find?_cons]
    by_cases ha : look a = (tag, k)
    · simp [ha]
    · simp only [ha, if_false, decide_false]
      exact ih (Nat.lt_of_succ_lt_succ hturns)

theorem getPosLoop_spec (look : Look) (tag : UInt32) (k : Bytes) : ∀ {l : List ℕ} {pos : HtPos} {turns : ℕ},
    Threaded m.htNext (m.read pos) l → l.length < turns → ∃ r, m.getPosLoop look tag k turns pos = some r ∧
      r.map Prod.fst = (l.find? fun c => look c = (tag, k)) ∧
      ∀ c pos', r = some (c, pos') → ∃ pre post, l = pre ++ c :: post ∧ pos' = posAfter pos pre := by
  intro l
  induction l with
  | nil =>
    intro pos turns hl hturns
    obtain ⟨turns, rfl⟩ := Nat.exists_eq_succ_of_ne_zero (Nat.ne_of_gt hturns)
    refine ⟨none, ?_, rfl, nofun⟩
    rw [getPosLoop, threaded_nil_iff.mp hl]
  | cons a l ih =>
    intro pos turns hl hturns
    obtain ⟨turns, rfl⟩ := Nat.exists_eq_succ_of_ne_zero (Nat.ne_of_gt (Nat.zero_lt_of_lt hturns))
    obtain ⟨hread, hnext⟩ := threaded_cons_iff.mp hl
    rw [getPosLoop, hread, List.find?_cons]
    by_cases ha : look a = (tag, k)
    · refine ⟨some (a, pos), by simp [ha], by simp [ha], ?_⟩
      rintro c pos' ⟨⟩
      exact ⟨[], l, rfl, rfl⟩
    · obtain ⟨r, hr, hfind, hpos⟩ := @ih (.htNext a) turns hnext (Nat.lt_of_succ_lt_succ hturns)
      refine ⟨r, by simpa only [ha, if_false] using hr, by simpa only [ha, decide_false] using hfind, ?_⟩
      intro c pos' hc
      obtain ⟨pre, post, rfl, rfl⟩ := hpos c pos' hc
      exact ⟨a :: pre, post, rfl, rfl⟩

/-- **`get`** ends, and finds what the table has; the other one also finds the place of the link to it. -/
theorem getPos_spec (h : Represents m t) (hagree : t.Agrees look S) {turns : ℕ} (hturns : S.length < turns)
    (tag : UInt32) (k : Bytes) : ∃ r, m.getPos turns look tag k = some r ∧ m.get turns look tag k = some (r.map Prod.fst) ∧
      r.map Prod.fst = t.get look tag k ∧
      ∀ c pos, r = some (c, pos) → m.bm (getKeyhash tag k t.sz) = true ∧ ∃ pre post,
        t.chain (getKeyhash tag k t.sz) = pre ++ c :: post ∧ pos = posAfter (.bucket (getKeyhash tag k t.sz)) pre := by
  have hchain := h.chain (getKeyhash tag k t.sz)
  have hlen := Nat.lt_of_le_of_lt (length_chain_le hagree (getKeyhash tag k t.sz)) hturns
  unfold getPos get KnvHt.get
  rw [h.sz]
  simp only
  cases hbit : m.bm (getKeyhash tag k t.sz) with
  | false =>
    have hnil : t.chain (getKeyhash tag k t.sz) = [] := by simpa [head, hbit] using hchain
    rw [hnil]
    exact ⟨none, rfl, rfl, rfl, nofun⟩
  | true =>
    rw [head, if_pos hbit] at hchain
    have hread : Threaded m.htNext (m.read (.bucket (getKeyhash tag k t.sz))) (t.chain (getKeyhash tag k t.sz)) := hchain
    obtain ⟨r, hr, hfind, hpos⟩ := getPosLoop_spec look tag k hread hlen
    refine ⟨r, hr, ?_, hfind, fun c pos hc => ⟨rfl, hpos c pos hc⟩⟩
    rw [hfind]
    exact getLoop_spec hchain hlen

/-! ### Removal -/

/-- **`remove(node, pos)`**, with the place of the link to the node. -/
theorem represents_removePos (h : Represents m t) (hagree : t.Agrees look S) {c hi : ℕ} {pre post : List ℕ}
    (hbit : m.bm hi = true) (hl : t.chain hi = pre ++ c :: post) :
    Represents (m.removePos c (posAfter (.bucket hi) pre)) (t.removePos c hi) := by
  have hchain := h.chain hi
  have hnd := hchain.nodup
  rw [hl] at hnd hchain
  have hcS : c ∈ S := (hagree.chain.mem.mp (show c ∈ t.chain hi by simp [hl])).1
  have hnr : m.nr - 1 = Int32.ofNat (t.nr - 1) := by
    have hpos : 1 ≤ t.nr := hagree.nr ▸ List.length_pos_of_mem hcS
    rw [Int32.ofNat_sub _ _ hpos, h.nr]
    rfl
  have herase : (pre ++ c :: post).erase c = pre ++ post := by
    have hpre : c ∉ pre := fun hmem => (List.nodup_append.mp hnd).2.2 c hmem c (List.mem_cons_self ..) rfl
    rw [List.erase_append_right _ hpre, List.erase_cons_head]
  have hunlink : ∀ b, (t.removePos c hi).chain b = if b = hi then pre ++ post else t.chain b := by
    intro b
    simp only [KnvHt.removePos, unlink]
    split
    · rw [hl, herase]
    · rfl
  rcases List.eq_nil_or_concat pre with rfl | ⟨pre, p, rfl⟩
  · have hhead : ∀ b, (m.removePos c (.bucket hi)).head b = if b = hi then m.htNext c else m.head b := by
      intro b
      by_cases hb : b = hi
      · subst hb
        simp [removePos, write, head, hbit]
      · simp [removePos, write, head, hb]
    refine ⟨h.sz, hnr, fun b => ?_⟩
    rw [hunlink, posAfter, hhead]
    by_cases hb : b = hi
    · rw [if_pos hb, if_pos hb]
      exact (threaded_cons_iff.mp hchain).2
    · rw [if_neg hb, if_neg hb]
      exact h.chain b
  · rw [List.concat_eq_append] at *
    rw [posAfter_concat]
    have hp : p ∈ t.chain hi := by simp [hl]
    refine ⟨h.sz, hnr, fun b => ?_⟩
    rw [hunlink]
    simp only [removePos, write]
    by_cases hb : b = hi
    · subst hb
      rw [if_pos rfl]
      rw [List.append_assoc] at hchain ⊢
      exact hchain.skip (fun a ha => Function.update_of_ne ha ..) (Function.update_self ..)
    · rw [if_neg hb]
      refine (h.chain b).congr fun a ha => Function.update_of_ne ?_ ..
      rintro rfl
      exact hb ((hagree.chain.mem.mp ha).2.symm.trans (hagree.chain.mem.mp hp).2)

theorem removeLoop_spec (node hi : ℕ) : ∀ {l : List ℕ} (prev : Option ℕ) {c turns : ℕ},
    Threaded m.htNext (some c) l → l.length < turns →
      (∃ pre post, l = pre ++ node :: post ∧ m.removeLoop node hi turns prev c =
        some (.ok (m.removePos node (posAfter (prev.elim (.bucket hi) .htNext) pre)))) ∨
      node ∉ l ∧ m.removeLoop node hi turns prev c = some (.error "tag/key not found in ht") := by
  intro l
  induction l with
  | nil => exact fun _ _ _ hl => absurd (threaded_nil_iff.mp hl) (Option.some_ne_none _)
  | cons a l ih =>
    intro prev c turns hl hturns
    obtain ⟨turns, rfl⟩ := Nat.exists_eq_succ_of_ne_zero (Nat.ne_of_gt (Nat.zero_lt_of_lt hturns))
    obtain ⟨hca, hnext⟩ := threaded_cons_iff.mp hl
    obtain rfl := Option.some.inj hca
    unfold removeLoop
    by_cases hc : c = node
    · subst hc
      refine .inl ⟨[], l, rfl, ?_⟩
      rw [if_pos rfl]
      cases prev <;> rfl
    · rw [if_neg hc]
      cases hlink : m.htNext c with
      | none =>
        rw [hlink] at hnext
        obtain rfl := threaded_none_iff.mp hnext
        exact .inr ⟨fun hmem => hc (List.mem_singleton.mp hmem).symm, rfl⟩
      | some c' =>
        rw [hlink] at hnext
        obtain ⟨pre, post, rfl, hloop⟩ | ⟨hnot, hloop⟩ := ih (some c) hnext (Nat.lt_of_succ_lt_succ hturns)
        · exact .inl ⟨c :: pre, post, rfl, hloop⟩
        · exact .inr ⟨fun hmem => (List.mem_cons.mp hmem).elim (fun heq => hc heq.symm) hnot, hloop⟩

/-- **`remove(node)`** ends, and takes the node out of the table if it is there. -/
theorem represents_remove (h : Represents m t) (hagree : t.Agrees look S) (c : ℕ) {turns : ℕ} (hturns : S.length < turns) :
    ∃ r, m.remove turns look c = some r ∧
      Represents (r.toOption.getD m) (t.remove c (look c).1 (look c).2) := by
  have hchain := h.chain (KnvHt.bucketOf look t.sz c)
  have hlen := Nat.lt_of_le_of_lt (length_chain_le hagree (KnvHt.bucketOf look t.sz c)) hturns
  unfold remove KnvHt.remove
  rw [h.sz]
  simp only
  rw [show getKeyhash (look c).1 (look c).2 t.sz = KnvHt.bucketOf look t.sz c from rfl]
  cases hbit : m.bm (KnvHt.bucketOf look t.sz c) with
  | false =>
    have hnil : t.chain (KnvHt.bucketOf look t.sz c) = [] := by simpa [head, hbit] using hchain
    rw [hnil, if_neg List.not_mem_nil]
    exact ⟨_, rfl, h⟩
  | true =>
    rw [head, if_pos hbit] at hchain
    cases hhead : m.ht (KnvHt.bucketOf look t.sz c) with
    | none =>
      rw [hhead] at hchain
      rw [threaded_none_iff.mp hchain, if_neg List.not_mem_nil]
      exact ⟨_, rfl, h⟩
    | some a =>
      rw [hhead] at hchain
      simp only
      obtain ⟨pre, post, hl, hloop⟩ | ⟨hnot, hloop⟩ :=
        removeLoop_spec c (KnvHt.bucketOf look t.sz c) none hchain hlen
      · rw [if_pos (by simp [hl])]
        exact ⟨_, hloop, represents_removePos h hagree hbit hl⟩
      · rw [if_neg hnot]
        exact ⟨_, hloop, h⟩

end KnvHtMem

/-! ### Uses -/

/-- A table, what it reads of the nodes, and the nodes inside. -/
structure HtUse where
  /-- The table. -/
  ht : KnvHtMem
  /-- The tag and the key of every node. -/
  look : Look
  /-- The nodes inside. -/
  inside : List ℕ := []
  /-- What the `get` just before has returned. -/
  found : Option (ℕ × HtPos) := none

/-- What happens to a table. -/
inductive HtCall where
  /-- `put`, and what `UcMemManager::Alloc` returns if the table grows. -/
  | put (c : ℕ) (mem : Option (ℕ → Option ℕ))
  /-- `remove(node)`. -/
  | remove (c : ℕ)
  /-- `remove(node, pos)`, of what the `get` just before has returned. -/
  | removePos
  /-- `get`. -/
  | get (tag : UInt32) (k : Bytes)
  /-- A node gets another tag or key. -/
  | change (c : ℕ) (tag : UInt32) (k : Bytes)

/-- What the callers see to: a node is put when it is not inside, it keeps its tag and key while it is, and only what has
been found is removed by its place. -/
def HtCall.Allowed (u : HtUse) : HtCall → Prop
  | put c _ => c ∉ u.inside
  | change c _ _ => c ∉ u.inside
  | removePos => u.found.isSome = true
  | _ => True

/-- The turns that a loop may take: one more than there are nodes. -/
def HtUse.turns (u : HtUse) : ℕ := u.inside.length + 1

/-- A call. It has no result if a loop does not end. -/
def HtCall.run : HtCall → HtUse → Option HtUse
  | put c mem, u => (u.ht.put u.turns mem u.look c).map fun r =>
    match r with
    | .ok ht => { u with ht := ht, inside := c :: u.inside, found := none }
    | .error _ => { u with found := none }
  | remove c, u => (u.ht.remove u.turns u.look c).map fun r =>
    { u with ht := r.toOption.getD u.ht, inside := u.inside.erase c, found := none }
  | removePos, u =>
    match u.found with
    | some (c, pos) => some { u with ht := u.ht.removePos c pos, inside := u.inside.erase c, found := none }
    | none => some u
  | get tag k, u => (u.ht.getPos u.turns u.look tag k).map fun r => { u with found := r }
  | change c tag k, u => some { u with look := Function.update u.look c (tag, k), found := none }

/-- A call that is allowed. -/
def HtStep (u u' : HtUse) : Prop := ∃ call : HtCall, call.Allowed u ∧ call.run u = some u'

/-- A table after `clear`, in which nothing is. -/
def HtUse.start (ht htNext : ℕ → Option ℕ) (look : Look) : HtUse := { ht := { ht := ht, htNext := htNext }, look := look }

/-- Every state of every use of a table. -/
def HtReached (u : HtUse) : Prop := ∃ ht htNext look, Relation.ReflTransGen HtStep (.start ht htNext look) u

/-- What a table has found is where its place says. -/
def FoundIn (u : HtUse) (t : KnvHt) : Prop :=
  ∀ c pos, u.found = some (c, pos) → u.ht.bm (KnvHt.bucketOf u.look t.sz c) = true ∧ ∃ pre post,
    t.chain (KnvHt.bucketOf u.look t.sz c) = pre ++ c :: post ∧
      pos = KnvHtMem.posAfter (.bucket (KnvHt.bucketOf u.look t.sz c)) pre

/-- What every use keeps: the links lead to the chains of a table that agrees with the nodes inside. -/
structure Kept (u : HtUse) (t : KnvHt) : Prop where
  represents : Represents u.ht t
  agrees : t.Agrees u.look u.inside
  nodup : u.inside.Nodup
  roomy : KnvHtMem.Roomy t
  found : FoundIn u t

/-- **A call that is allowed** ends, and keeps the table. -/
theorem kept_run {u : HtUse} {t : KnvHt} (h : Kept u t) (call : HtCall) (hallowed : call.Allowed u) :
    ∃ u', call.run u = some u' ∧ ∃ t', Kept u' t' := by
  obtain ⟨hrep, hagree, hnd, hroomy, hfound⟩ := h
  have hturns : u.inside.length < u.turns := Nat.lt_succ_self _
  cases call with
  | put c mem =>
    have hc : c ∉ u.inside := hallowed
    obtain ⟨r, hr, hput, -⟩ := KnvHtMem.represents_put hrep hagree hnd hroomy hc hturns mem
    rw [HtCall.run, hr]
    cases r with
    | error e => exact ⟨_, rfl, t, hrep, hagree, hnd, hroomy, fun c pos hcp => (by cases hcp)⟩
    | ok ht =>
      exact ⟨_, rfl, t.put u.look c, hput ht rfl, hagree.put c, List.nodup_cons.mpr ⟨hc, hnd⟩,
        KnvHtMem.roomy_put hagree hroomy c, fun c pos hcp => (by cases hcp)⟩
  | remove c =>
    obtain ⟨r, hr, hremove⟩ := KnvHtMem.represents_remove hrep hagree c hturns
    rw [HtCall.run, hr]
    refine ⟨_, rfl, t.remove c (u.look c).1 (u.look c).2, hremove, ?_, hnd.erase c, ?_, fun c pos hcp => (by cases hcp)⟩
    · by_cases hc : c ∈ u.inside
      · exact hagree.remove hc
      · have hnot : c ∉ t.chain (getKeyhash (u.look c).1 (u.look c).2 t.sz) := fun hmem => hc (hagree.chain.mem.mp hmem).1
        rw [KnvHt.remove, if_neg hnot, List.erase_of_not_mem hc]
        exact hagree
    · unfold KnvHt.remove
      simp only
      split
      · exact fun hsz => Nat.le_trans (Nat.sub_le ..) (hroomy hsz)
      · exact hroomy
  | removePos =>
    obtain ⟨⟨c, pos⟩, hcp⟩ := Option.isSome_iff_exists.mp (show u.found.isSome = true from hallowed)
    obtain ⟨hbit, pre, post, hl, rfl⟩ := hfound c pos hcp
    have hc : c ∈ u.inside := (hagree.chain.mem.mp (show c ∈ t.chain (KnvHt.bucketOf u.look t.sz c) by simp [hl])).1
    rw [HtCall.run, hcp]
    exact ⟨_, rfl, t.removePos c (KnvHt.bucketOf u.look t.sz c), KnvHtMem.represents_removePos hrep hagree hbit hl,
      hagree.removePos hc, hnd.erase c, fun hsz => Nat.le_trans (Nat.sub_le ..) (hroomy hsz),
      fun c pos hcp => (by cases hcp)⟩
  | get tag k =>
    obtain ⟨r, hr, -, hget, hpos⟩ := KnvHtMem.getPos_spec hrep hagree hturns tag k
    rw [HtCall.run, hr]
    refine ⟨_, rfl, t, hrep, hagree, hnd, hroomy, fun c pos hcp => ?_⟩
    have hcp : r = some (c, pos) := hcp
    have hlook := (hagree.of_get (hget.symm.trans (by rw [hcp]; rfl))).2
    simp only [KnvHt.bucketOf, hlook]
    exact hpos c pos hcp
  | change c tag k =>
    have hc : c ∉ u.inside := hallowed
    refine ⟨_, rfl, t, hrep, hagree.congr fun a ha => (Function.update_of_ne ?_ ..).symm, hnd, hroomy,
      fun c pos hcp => (by cases hcp)⟩
    rintro rfl
    exact hc ha

/-- Every state of every use keeps the table. -/
theorem HtReached.kept {u : HtUse} (h : HtReached u) : ∃ t, Kept u t := by
  obtain ⟨ht, htNext, look, hrun⟩ := h
  induction hrun with
  | refl => exact ⟨{}, ⟨rfl, rfl, fun _ => .nil⟩, KnvHt.agrees_empty look, List.nodup_nil, fun _ => by decide, nofun⟩
  | tail _ hstep ih =>
    obtain ⟨t, hkept⟩ := ih
    obtain ⟨call, hallowed, hrun⟩ := hstep
    obtain ⟨u', hu', hkept'⟩ := kept_run hkept call hallowed
    cases hrun.symm.trans hu'
    exact hkept'

/-- A table is a multimap of the nodes inside. -/
structure Faithful (u : HtUse) : Prop where
  /-- `nr` is their number. -/
  nr : u.ht.nr.toInt = u.inside.length
  /-- From the bucket of its hash every node inside is reached, once, and nothing else is; every chain ends. -/
  chains : ∃ chain : ℕ → List ℕ, ∀ b, Threaded u.ht.htNext (u.ht.head b) (chain b) ∧
    ∀ c, (chain b).count c = if c ∈ u.inside ∧ KnvHt.bucketOf u.look u.ht.sz c = b then 1 else 0
  /-- Both `get` return a node inside with the tag and key, and `NULL` if there is none. -/
  get : ∀ tag k, ∃ r, u.ht.getPos u.turns u.look tag k = some r ∧ u.ht.get u.turns u.look tag k = some (r.map Prod.fst) ∧
    (∀ c pos, r = some (c, pos) → c ∈ u.inside ∧ u.look c = (tag, k)) ∧
    (r = none → ∀ c ∈ u.inside, u.look c ≠ (tag, k))
  /-- Every call ends. -/
  ends : ∀ call : HtCall, call.Allowed u → (call.run u).isSome = true

theorem toInt_ofNat_eq_iff (n : ℕ) : (Int32.ofNat n).toInt = n ↔ n < 2 ^ 31 := by
  constructor
  · intro h
    have hlt := (Int32.ofNat n).toInt_lt
    omega
  · exact fun h => Int32.toInt_ofNat_of_lt h

/-- `nr` is the number of the nodes inside exactly as long as they are fewer than 2^31. -/
theorem Kept.nr_iff {u : HtUse} {t : KnvHt} (h : Kept u t) :
    u.ht.nr.toInt = u.inside.length ↔ u.inside.length < 2 ^ 31 := by
  rw [h.represents.nr, h.agrees.nr]
  exact toInt_ofNat_eq_iff _

/-- **When a table is a faithful multimap**, in every state of every use: as long as there are fewer than 2^31 nodes
inside. -/
theorem faithful_iff {u : HtUse} (h : HtReached u) : Faithful u ↔ u.inside.length < 2 ^ 31 := by
  obtain ⟨t, hkept⟩ := h.kept
  have hagree := hkept.agrees
  refine ⟨fun hf => hkept.nr_iff.mp hf.nr, fun hlt => ?_⟩
  refine ⟨hkept.nr_iff.mpr hlt, ⟨t.chain, fun b => ⟨hkept.represents.chain b, fun c => ?_⟩⟩, fun tag k => ?_,
    fun call hallowed => ?_⟩
  · rw [hkept.represents.sz, List.Nodup.count (hagree.chain.nodup hkept.nodup b)]
    simp only [hagree.chain.mem]
  · obtain ⟨r, hr, hget, hfind, -⟩ := KnvHtMem.getPos_spec hkept.represents hagree (Nat.lt_succ_self _) tag k
    refine ⟨r, hr, hget, fun c pos hcp => hagree.of_get (hfind.symm.trans (by rw [hcp]; rfl)), fun hnone => ?_⟩
    rw [hnone] at hfind
    exact hagree.get_eq_none_iff.mp hfind.symm
  · obtain ⟨u', hu', -⟩ := kept_run hkept call hallowed
    rw [hu']
    rfl

/-- Two nodes that are in the same bucket. -/
theorem faithful_iff_two : ∃ u, HtReached u ∧ u.inside = [9, 7] ∧ (Faithful u ↔ u.inside.length < 2 ^ 31) := by
  have h1 : Relation.ReflTransGen HtStep (.start (fun _ => some 1) (fun _ => some 1) fun _ => (11, [])) _ :=
    .single ⟨.put 7 none, List.not_mem_nil, rfl⟩
  have h2 := h1.tail ⟨.put 9 none, (by decide : 9 ∉ [7]), rfl⟩
  exact ⟨_, ⟨_, _, _, h2⟩, rfl, faithful_iff ⟨_, _, _, h2⟩⟩

/-- A table can hold any number of nodes. -/
theorem exists_inside (n : ℕ) : ∃ u, HtReached u ∧ u.inside.length = n := by
  induction n with
  | zero => exact ⟨_, ⟨fun _ => none, fun _ => none, fun _ => (0, []), .refl⟩, rfl⟩
  | succ n ih =>
    obtain ⟨u, hu, hlen⟩ := ih
    obtain ⟨t, hkept⟩ := hu.kept
    obtain ⟨c, hc⟩ := Infinite.exists_notMem_finset u.inside.toFinset
    have hc : c ∉ u.inside := fun hmem => hc (List.mem_toFinset.mpr hmem)
    obtain ⟨r, hr, -, hok⟩ := KnvHtMem.represents_put hkept.represents hkept.agrees hkept.nodup hkept.roomy hc
      (Nat.lt_succ_self _) (some fun _ => none)
    obtain ⟨ht, rfl⟩ := hok rfl
    obtain ⟨ht₀, htNext, look, hrun⟩ := hu
    have hrun' : (HtCall.put c (some fun _ => none)).run u =
        some { u with ht := ht, inside := c :: u.inside, found := none } := by
      rw [HtCall.run, HtUse.turns, hr]
      rfl
    exact ⟨_, ⟨ht₀, htNext, look, hrun.tail ⟨.put c (some fun _ => none), hc, hrun'⟩⟩, congrArg (· + 1) hlen⟩

/-- Of 2^31 nodes `nr` says that there are -2^31. -/
theorem not_faithful : ¬∀ u, HtReached u → Faithful u := by
  intro h
  obtain ⟨u, hu, hlen⟩ := exists_inside (2 ^ 31)
  obtain ⟨t, hkept⟩ := hu.kept
  have hlt := hkept.nr_iff.mp (h u hu).nr
  rw [hlen] at hlt
  exact absurd hlt (Nat.lt_irrefl _)

end KnvProto
