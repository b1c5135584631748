import KnvProto.Memory.Manager
import KnvProto.Memory.Surplus

/-!
# The memory of blocks

How many bytes the memory of a block was allocated with, through all the ways that a block
takes: made new, recycled, or obtained after `Shrink`.

## The model

The manager of `KnvProto.Memory.Manager`, and beside it what `malloc` was asked for: `Sizes`
keeps for every object of every pool the argument of the last `malloc` whose result the
object got. Forgetting it gives the manager back (`memStep_iff`).

`largeEnough_iff`: a block is large enough, and one of a pool is of the smallest class that
will do; but a block that is larger than the largest class is returned whether `malloc` has
given memory for it or not.
-/

namespace KnvProto.Memory

/-- The bytes that `malloc` was asked for, for the object of a class at an address. -/
abbrev Sizes := ℕ → ℕ → ℕ

/-- What `UcMemPool::Alloc` of the pool of a class asks `malloc` for. -/
def recordMalloc (env : Env) (magic : ℕ) (p : UcMemPool) (s : Sizes) : Sizes :=
  match p.mallocFor (env.newObj magic) with
  | some m => if env.mallocOk then fun i a => if i = magic ∧ a = m.addr then p.szEach else s i a else s
  | none => s

namespace UcMemManager

/-- `Alloc` after shrinking the other pools. -/
def allocAfterShrinkSized (env : Env) (magic : ℕ) (g : UcMemManager) (s : Sizes) : UcMemManager × MemBlock × Sizes :=
  let (g, shk) := g.shrink env magic
  if shk = 0 then (g, .null, s)
  else
    match g.pools magic with
    | some p =>
      let p := { p with szMax := p.szMax + shk }
      let (g, r) := g.allocFrom env magic p
      (g, blockOf magic r, recordMalloc env magic p s)
    | none => (g, .null, s)

/-- `Alloc`. -/
def allocSized (env : Env) (sz : ℕ) (g : UcMemManager) (s : Sizes) : UcMemManager × MemBlock × Sizes :=
  match getMagic sz with
  | none => (g, .direct, s)
  | some magic =>
    match g.getPool env magic with
    | (g, none) => (g, .null, s)
    | (g, some p) =>
      let (g, r) := g.allocFrom env magic p
      let s := recordMalloc env magic p s
      if r.block.isNone && r.exceedLimit then g.allocAfterShrinkSized env magic s else (g, blockOf magic r, s)

theorem allocAfterShrinkSized_forget (env : Env) (magic : ℕ) (g : UcMemManager) (s : Sizes) :
    ((g.allocAfterShrinkSized env magic s).1, (g.allocAfterShrinkSized env magic s).2.1) = g.allocAfterShrink env magic := by
  unfold allocAfterShrinkSized allocAfterShrink
  generalize g.shrink env magic = r
  obtain ⟨g', shk⟩ := r
  simp only
  split
  · rfl
  · cases g'.pools magic <;> rfl

/-- **The sizes change nothing**: the manager does what it does without them. -/
theorem allocSized_forget (env : Env) (sz : ℕ) (g : UcMemManager) (s : Sizes) :
    ((g.allocSized env sz s).1, (g.allocSized env sz s).2.1) = g.alloc env sz := by
  unfold allocSized alloc
  cases getMagic sz with
  | none => rfl
  | some magic =>
    simp only
    generalize g.getPool env magic = r
    obtain ⟨g', _ | p⟩ := r
    · rfl
    · simp only
      split
      · exact allocAfterShrinkSized_forget ..
      · rfl

/-- `GetAllocSize` of a block. -/
def getAllocSize (g : UcMemManager) : MemBlock → ℕ
  | .ofPool magic _ => (g.pools magic).elim 0 UcMemPool.szEach
  | _ => 0

end UcMemManager

/-- The bytes that the memory of a block was allocated with, if it has memory: `new UcMem(sz)` takes what `malloc`
returns. -/
def MemBlock.bytes (env : Env) (sz : ℕ) (s : Sizes) : MemBlock → Option ℕ
  | .null => none
  | .direct => if env.mallocOk then some sz else none
  | .ofPool magic m => if m.mem then some (s magic m.addr) else none

/-- Is it a block? -/
def MemBlock.isBlock : MemBlock → Bool
  | .null => false
  | _ => true

/-- The manager, what is handed out, and the sizes. -/
structure Stocked extends Managed where
  /-- What `malloc` was asked for. -/
  sizes : Sizes := fun _ _ => 0

/-- A call. -/
def MemCall.runSized : MemCall → Stocked → Option Stocked
  | alloc env sz, u =>
    let (g, b, s) := u.mng.allocSized env sz u.sizes
    some ⟨⟨g, handOut b u.out⟩, s⟩
  | free magic m, u => ((MemCall.free magic m).run u.toManaged).map fun v => ⟨v, u.sizes⟩

theorem runSized_forget (call : MemCall) (u : Stocked) :
    (call.runSized u).map (·.toManaged) = call.run u.toManaged := by
  cases call with
  | alloc env sz =>
    have hforget := UcMemManager.allocSized_forget env sz u.mng u.sizes
    rw [MemCall.runSized, MemCall.run, ← hforget]
    rfl
  | free magic m =>
    rw [MemCall.runSized]
    cases (MemCall.free magic m).run u.toManaged <;> rfl

/-- A manager that has not been used. -/
def Stocked.start (szMax : ℕ) : Stocked := { Managed.start szMax with }

/-- One call after the other. -/
def SizedStep (u u' : Stocked) : Prop := ∃ call : MemCall, call.runSized u = some u'

/-- **The manager takes the same steps** with the sizes as without them. -/
theorem memStep_iff {u : Stocked} {v : Managed} :
    MemStep (fun _ _ => True) u.toManaged v ↔ ∃ u', SizedStep u u' ∧ u'.toManaged = v := by
  constructor
  · rintro ⟨call, -, hrun⟩
    rw [← runSized_forget] at hrun
    obtain ⟨u', hu', hv⟩ := Option.map_eq_some_iff.mp hrun
    exact ⟨u', ⟨call, hu'⟩, hv⟩
  · rintro ⟨u', ⟨call, hu'⟩, rfl⟩
    refine ⟨call, trivial, ?_⟩
    rw [← runSized_forget, hu']
    rfl

/-! ### A pool -/

/-- The objects of a pool that have memory have as much as the class of the pool says. -/
structure OfClass (s : ℕ → ℕ) (sz : ℕ) (p : UcMemPool) (out : List UcMem) : Prop where
  /-- `sz_each`. -/
  each : p.szEach = sz
  /-- An object of the free list. -/
  free : ∀ m ∈ p.pool.freelist, m.mem = true → s m.addr = sz
  /-- An object that is handed out. -/
  out : ∀ m ∈ out, m.mem = true → s m.addr = sz

/-- A new object has no memory. -/
theorem ObjPool.Takes.mem_of_mem {o o' : ObjPool} {m x : UcMem} (h : ObjPool.Takes o m o') (hx : x ∈ m :: o'.freelist)
    (hmem : x.mem = true) : x ∈ o.freelist := by
  cases h with
  | first hl =>
    rw [hl]
    exact hx
  | made hl =>
    simp only [hl, List.mem_singleton] at hx
    rw [hx] at hmem
    cases hmem

namespace UcMemPool

variable {p : UcMemPool} {out : List UcMem} {s : ℕ → ℕ} {sz : ℕ}

/-- `Alloc` gives no object of the free list memory. -/
theorem free_alloc (newOk mallocOk : Bool) (p : UcMemPool) : (p.alloc newOk mallocOk).pool.szEach = p.szEach ∧
    ∀ m ∈ (p.alloc newOk mallocOk).pool.pool.freelist, m.mem = true → m ∈ p.pool.freelist := by
  have hcases := alloc_cases newOk mallocOk p
  generalize p.alloc newOk mallocOk = r at hcases
  cases hcases with
  | noObject => exact ⟨rfl, fun m hm _ => hm⟩
  | noRoom ht _ _ => exact ⟨rfl, fun m hm hmem => ht.mem_of_mem hm hmem⟩
  | noMemory ht _ _ => exact ⟨rfl, fun m hm hmem => ht.mem_of_mem hm hmem⟩
  | fresh ht _ _ => exact ⟨rfl, fun m hm hmem => ht.mem_of_mem (List.mem_cons_of_mem _ hm) hmem⟩
  | bad ht _ _ => exact ⟨rfl, fun m hm hmem => ht.mem_of_mem (List.mem_cons_of_mem _ hm) hmem⟩
  | old ht _ _ => exact ⟨rfl, fun m hm hmem => ht.mem_of_mem (List.mem_cons_of_mem _ hm) hmem⟩

/-- A block has memory: its own from before, or what `malloc` has returned. -/
theorem memory_of_alloc {newOk mallocOk : Bool} {m : UcMem} (h : (p.alloc newOk mallocOk).block = some m) :
    m.mem = true ∧ (m ∈ p.pool.freelist ∨
      mallocOk = true ∧ ∃ x, p.mallocFor newOk = some x ∧ x.addr = m.addr) := by
  unfold alloc at h
  unfold mallocFor
  obtain ⟨hnew, -⟩ | ⟨x, o, hnew, ht⟩ := ObjPool.new_cases newOk p.pool
  · simp [hnew] at h
  · rw [hnew] at h ⊢
    cases hx : x.mem with
    | false =>
      by_cases hroom : p.szMax < p.szTotal + p.szEach
      · simp [hx, hroom] at h
      · cases mallocOk with
        | false => simp [hx, hroom] at h
        | true =>
          simp only [hx, hroom, Bool.not_false, if_true, if_false, Bool.not_true, Bool.false_eq_true,
            Option.some.injEq] at h
          subst h
          exact ⟨rfl, .inr ⟨rfl, x, by simp [hx, Nat.not_lt.mp hroom], rfl⟩⟩
    | true =>
      obtain rfl : x = m := by
        simp only [hx, Bool.not_true, Bool.false_eq_true, if_false] at h
        split at h <;> exact Option.some.inj h
      exact ⟨hx, .inl (ht.mem_of_mem (List.mem_cons_self ..) hx)⟩

/-- The loop of `Shrink` gives no object memory. -/
theorem free_shrinkLoop (newOk : Bool) (maxFree : ℕ) : ∀ (fuel : ℕ) (p : UcMemPool) (shk : ℕ),
    (shrinkLoop newOk maxFree fuel p shk).pool.szEach = p.szEach ∧
      ∀ m ∈ (shrinkLoop newOk maxFree fuel p shk).pool.pool.freelist, m.mem = true → m ∈ p.pool.freelist := by
  intro fuel
  induction fuel with
  | zero => exact fun p shk => ⟨rfl, fun m hm _ => hm⟩
  | succ fuel ih =>
    intro p shk
    rw [shrinkLoop]
    split
    · exact ⟨rfl, fun m hm _ => hm⟩
    obtain ⟨hnew, -⟩ | ⟨x, o, hnew, ht⟩ := ObjPool.new_cases newOk p.pool
    · simp only [hnew]
      exact ⟨trivial, fun m hm _ => hm⟩
    simp only [hnew]
    -- what is put back without its memory is none of those that have some
    have hback : ∀ m ∈ (o.delete { x with mem := false }).freelist, m.mem = true → m ∈ p.pool.freelist := by
      intro m hm hmem
      rcases List.mem_cons.mp hm with rfl | hm
      · cases hmem
      · exact ht.mem_of_mem (List.mem_cons_of_mem _ hm) hmem
    split
    · exact ⟨rfl, fun m hm hmem => ht.mem_of_mem hm hmem⟩
    split
    all_goals
      obtain ⟨heach, hfree⟩ := ih _ (shk + p.szEach)
      exact ⟨heach, fun m hm hmem => hback m (hfree m hm hmem) hmem⟩

/-- `Shrink` gives no object memory. -/
theorem free_shrink (newOk : Bool) (p : UcMemPool) : (p.shrink newOk).pool.szEach = p.szEach ∧
    ∀ m ∈ (p.shrink newOk).pool.pool.freelist, m.mem = true → m ∈ p.pool.freelist := by
  have hloop := free_shrinkLoop newOk (min (p.szMax / 4) p.szTotal) (p.pool.freelist.countP (·.mem) + 1) p 0
  unfold shrink
  simp only
  split
  · exact ⟨rfl, fun m hm _ => hm⟩
  · split <;> exact hloop

theorem ofClass_shrink (h : OfClass s sz p out) (newOk : Bool) : OfClass s sz (p.shrink newOk).pool out := by
  obtain ⟨heach, hfree⟩ := free_shrink newOk p
  exact ⟨heach.trans h.each, fun m hm hmem => h.free m (hfree m hm hmem) hmem, h.out⟩

theorem ofClass_free (h : OfClass s sz p out) {m : UcMem} (hm : m ∈ out) : OfClass s sz (p.free m).1 (out.erase m) := by
  have hfree : ∀ x ∈ (p.pool.delete m).freelist, x.mem = true → s x.addr = sz := by
    intro x hx hmem
    rcases List.mem_cons.mp hx with rfl | hx
    · exact h.out x hm hmem
    · exact h.free x hx hmem
  have hout : ∀ x ∈ out.erase m, x.mem = true → s x.addr = sz := fun x hx => h.out x (List.mem_of_mem_erase hx)
  unfold free
  simp only
  split
  · exact ⟨h.each, hfree, hout⟩
  · exact ⟨h.each, hfree, hout⟩

end UcMemPool

/-- What `malloc` is asked for is the size of the class. -/
theorem recordMalloc_same {env : Env} {magic : ℕ} {p : UcMemPool} {s : Sizes} (heach : p.szEach = magicSz magic) {a : ℕ}
    (h : s magic a = magicSz magic) : recordMalloc env magic p s magic a = magicSz magic := by
  unfold recordMalloc
  cases p.mallocFor (env.newObj magic) with
  | none => exact h
  | some x =>
    simp only
    split
    · simp only
      split
      · exact heach
      · exact h
    · exact h

theorem recordMalloc_other {env : Env} {magic i : ℕ} {p : UcMemPool} {s : Sizes} (hi : i ≠ magic) :
    recordMalloc env magic p s i = s i := by
  funext a
  unfold recordMalloc
  cases p.mallocFor (env.newObj magic) with
  | none => rfl
  | some x =>
    simp only
    split
    · exact if_neg fun hc => hi hc.1
    · rfl

/-- **`UcMemPool::Alloc`** keeps the sizes of the class, and the block has such memory. -/
theorem ofClass_alloc {env : Env} {magic : ℕ} {p : UcMemPool} {s : Sizes} {out : List UcMem}
    (h : OfClass (s magic) (magicSz magic) p out) :
    OfClass (recordMalloc env magic p s magic) (magicSz magic) (p.alloc (env.newObj magic) env.mallocOk).pool
        ((p.alloc (env.newObj magic) env.mallocOk).block.toList ++ out) ∧
      ∀ m, (p.alloc (env.newObj magic) env.mallocOk).block = some m →
        m.mem = true ∧ recordMalloc env magic p s magic m.addr = magicSz magic := by
  obtain ⟨heach, hfree⟩ := UcMemPool.free_alloc (env.newObj magic) env.mallocOk p
  have hblock : ∀ m, (p.alloc (env.newObj magic) env.mallocOk).block = some m →
      m.mem = true ∧ recordMalloc env magic p s magic m.addr = magicSz magic := by
    intro m hm
    obtain ⟨hmem, hold | ⟨hok, x, hx, haddr⟩⟩ := UcMemPool.memory_of_alloc hm
    · exact ⟨hmem, recordMalloc_same h.each (h.free m hold hmem)⟩
    · refine ⟨hmem, ?_⟩
      rw [recordMalloc, hx]
      simp only [hok, if_true, haddr, and_self]
      exact h.each
  refine ⟨⟨heach.trans h.each, fun m hm hmem => ?_, fun m hm hmem => ?_⟩, hblock⟩
  · exact recordMalloc_same h.each (h.free m (hfree m hm hmem) hmem)
  · rcases List.mem_append.mp hm with hm | hm
    · exact (hblock m (Option.mem_toList.mp hm)).2
    · exact recordMalloc_same h.each (h.out m hm hmem)

/-! ### The manager -/

/-- The memory in every pool is of its class. -/
structure Filed (g : UcMemManager) (out : ℕ → List UcMem) (s : Sizes) : Prop where
  /-- A pool that has been made. -/
  pool : ∀ i p, g.pools i = some p → OfClass (s i) (magicSz i) p (out i)
  /-- Nothing is handed out before the pool is made. -/
  unmade : ∀ i, g.pools i = none → out i = []

namespace UcMemManager

variable {g : UcMemManager} {out : ℕ → List UcMem} {s : Sizes} (env : Env)

theorem filed_setPool {out' : ℕ → List UcMem} {s' : Sizes} {i : ℕ} {p : UcMemPool} (h : Filed g out s)
    (hout : ∀ j, j ≠ i → out' j = out j) (hs : ∀ j, j ≠ i → s' j = s j) (hp : OfClass (s' i) (magicSz i) p (out' i)) :
    Filed (g.setPool i p) out' s' := by
  refine ⟨fun j q hq => ?_, fun j hj => ?_⟩
  · by_cases hji : j = i
    · subst hji
      rw [setPool_same] at hq
      cases hq
      exact hp
    · rw [setPool_other p g hji] at hq
      rw [hout j hji, hs j hji]
      exact h.pool j q hq
  · by_cases hji : j = i
    · subst hji
      rw [setPool_same] at hj
      cases hj
    · rw [setPool_other p g hji] at hj
      rw [hout j hji]
      exact h.unmade j hj

/-- `GetPool` files a new pool, which has no objects. -/
theorem filed_getPool (i : ℕ) (h : Filed g out s) :
    Filed (g.getPool env i).1 out s ∧ ∀ p, (g.getPool env i).2 = some p → (g.getPool env i).1.pools i = some p := by
  unfold getPool
  cases hp : g.pools i with
  | some p => exact ⟨h, fun q hq => hp.trans hq⟩
  | none =>
    simp only
    split
    · refine ⟨filed_setPool h (fun _ _ => rfl) (fun _ _ => rfl) ⟨rfl, nofun, ?_⟩, fun q hq => (setPool_same ..).trans hq⟩
      rw [h.unmade i hp]
      exact nofun
    · exact ⟨h, nofun⟩

theorem filed_shrinkPool (i : ℕ) (h : Filed g out s) : Filed (g.shrinkPool env i).1 out s := by
  obtain ⟨hget, hpool⟩ := filed_getPool env i h
  unfold shrinkPool
  generalize g.getPool env i = r at hget hpool
  obtain ⟨g', _ | p⟩ := r
  · exact hget
  · have hp := hget.pool i p (hpool p rfl)
    exact filed_setPool hget (fun _ _ => rfl) (fun _ _ => rfl) (UcMemPool.ofClass_shrink hp (env.newObj i))

theorem filed_shrinkLarger (szNeeded : ℕ) : ∀ (is : List ℕ) {g : UcMemManager} (shk : ℕ), Filed g out s →
    Filed (g.shrinkLarger env szNeeded is shk).1 out s := by
  intro is
  induction is with
  | nil => exact fun shk h => h
  | cons i is ih =>
    intro g shk h
    have hturn := filed_shrinkPool env i h
    rw [shrinkLarger]
    generalize g.shrinkPool env i = r at hturn
    obtain ⟨g', _ | k⟩ := r
    · exact ih shk hturn
    · simp only
      split
      · exact hturn
      · exact ih (shk + k) hturn

theorem filed_shrinkSmaller : ∀ (is : List ℕ) {g : UcMemManager} (shk : ℕ), Filed g out s →
    Filed (g.shrinkSmaller env is shk).1 out s := by
  intro is
  induction is with
  | nil => exact fun shk h => h
  | cons i is ih =>
    intro g shk h
    have hturn := filed_shrinkPool env i h
    rw [shrinkSmaller]
    generalize g.shrinkPool env i = r at hturn
    obtain ⟨g', _ | k⟩ := r
    · exact ih shk hturn
    · exact ih (shk + k) hturn

theorem filed_shrink (magic : ℕ) (h : Filed g out s) : Filed (g.shrink env magic).1 out s := by
  have hlarger := filed_shrinkLarger env (magicSz magic) (List.range' (magic + 1) (nrMagics - 1 - magic)).reverse 0 h
  unfold shrink
  generalize g.shrinkLarger env (magicSz magic) (List.range' (magic + 1) (nrMagics - 1 - magic)).reverse 0 = r at hlarger
  obtain ⟨g', shk, _ | _⟩ := r
  · exact filed_shrinkSmaller env _ shk hlarger
  · exact hlarger

/-- What `Alloc` for a class leaves, and returns: nothing, or a block of the class with its memory. -/
structure Serves (magic : ℕ) (out : ℕ → List UcMem) (r : UcMemManager × MemBlock × Sizes) : Prop where
  filed : Filed r.1 (handOut r.2.1 out) r.2.2
  /-- A block. -/
  block : r.2.1.isBlock = true → ∃ m, r.2.1 = .ofPool magic m ∧ m.mem = true ∧ r.2.2 magic m.addr = magicSz magic ∧
    r.1.getAllocSize r.2.1 = magicSz magic

/-- The pool of a class allocates. -/
theorem serves_allocFrom {magic : ℕ} {p : UcMemPool} (h : Filed g out s)
    (hp : OfClass (s magic) (magicSz magic) p (out magic)) :
    Serves magic out ((g.allocFrom env magic p).1, blockOf magic (g.allocFrom env magic p).2,
    recordMalloc env magic p s) := by
  obtain ⟨hpool, hblock⟩ := @ofClass_alloc env magic p s (out magic) hp
  obtain ⟨hsame, hother⟩ := handOut_blockOf magic (p.alloc (env.newObj magic) env.mallocOk) out
  refine ⟨filed_setPool h hother (fun j hj => recordMalloc_other hj) (hsame ▸ hpool), fun hb => ?_⟩
  cases hm : (p.alloc (env.newObj magic) env.mallocOk).block with
  | none => simp [allocFrom, blockOf, hm, MemBlock.isBlock] at hb
  | some m =>
    obtain ⟨hmem, hsize⟩ := hblock m hm
    have hblockOf : blockOf magic (g.allocFrom env magic p).2 = .ofPool magic m := by rw [allocFrom, blockOf, hm]
    refine ⟨m, hblockOf, hmem, hsize, ?_⟩
    rw [hblockOf, getAllocSize, allocFrom, setPool_same]
    exact hpool.each

theorem serves_null (magic : ℕ) (h : Filed g out s) : Serves magic out (g, .null, s) := ⟨h, nofun⟩

theorem serves_allocAfterShrink {magic : ℕ} (h : Filed g out s) :
    Serves magic out (g.allocAfterShrinkSized env magic s) := by
  have hshrink := filed_shrink env magic h
  unfold allocAfterShrinkSized
  generalize g.shrink env magic = r at hshrink
  obtain ⟨g', shk⟩ := r
  simp only
  split
  · exact serves_null magic hshrink
  · cases hp : g'.pools magic with
    | none => exact serves_null magic hshrink
    | some p =>
      obtain ⟨heach, hfree, hout⟩ := hshrink.pool magic p hp
      exact serves_allocFrom env hshrink ⟨heach, hfree, hout⟩

/-- **`UcMemManager::Alloc` serves a size that has a class.** -/
theorem serves_alloc {sz magic : ℕ} (h : Filed g out s) (hmagic : getMagic sz = some magic) :
    Serves magic out (g.allocSized env sz s) := by
  obtain ⟨hget, hpool⟩ := filed_getPool env magic h
  unfold allocSized
  rw [hmagic]
  simp only
  generalize g.getPool env magic = r at hget hpool
  obtain ⟨g₁, _ | p⟩ := r
  · exact serves_null magic hget
  · have hserves := serves_allocFrom env hget (hget.pool magic p (hpool p rfl))
    simp only
    split
    · next hcond =>
      -- nothing has been handed out
      have hnone := Option.isNone_iff_eq_none.mp (Bool.and_eq_true_iff.mp hcond).1
      have hfiled := hserves.filed
      simp only [blockOf, hnone, handOut] at hfiled
      exact serves_allocAfterShrink env hfiled
    · exact hserves

theorem filed_alloc (sz : ℕ) (h : Filed g out s) :
    Filed (g.allocSized env sz s).1 (handOut (g.allocSized env sz s).2.1 out) (g.allocSized env sz s).2.2 := by
  cases hmagic : getMagic sz with
  | none =>
    rw [allocSized, hmagic]
    exact h
  | some magic => exact (serves_alloc env h hmagic).filed

theorem filed_free {magic : ℕ} {m : UcMem} (h : Filed g out s) (hm : m ∈ out magic) :
    Filed (g.free magic m) (fun i => if i = magic then (out i).erase m else out i) s := by
  unfold free
  cases hp : g.pools magic with
  | none =>
    rw [h.unmade magic hp] at hm
    exact absurd hm List.not_mem_nil
  | some p =>
    refine filed_setPool h (fun j hj => if_neg hj) (fun _ _ => rfl) ?_
    rw [if_pos rfl]
    exact UcMemPool.ofClass_free (h.pool magic p hp) hm

end UcMemManager

/-! ### Runs -/

theorem filed_runSized {u u' : Stocked} {call : MemCall} (h : Filed u.mng u.out u.sizes) (hrun : call.runSized u = some u') :
    Filed u'.mng u'.out u'.sizes := by
  cases call with
  | alloc env sz =>
    cases hrun
    exact UcMemManager.filed_alloc env sz h
  | free magic m =>
    obtain ⟨v, hv, rfl⟩ := Option.map_eq_some_iff.mp hrun
    rw [MemCall.run] at hv
    split at hv
    · next hm =>
      cases hv
      exact UcMemManager.filed_free h hm
    · cases hv

theorem filed_of_run {szMax : ℕ} {u : Stocked} (h : Relation.ReflTransGen SizedStep (.start szMax) u) :
    Filed u.mng u.out u.sizes := by
  induction h with
  | refl => exact ⟨nofun, fun _ _ => rfl⟩
  | tail _ hstep ih =>
    obtain ⟨call, hrun⟩ := hstep
    exact filed_runSized ih hrun

/-- A block is large enough for what was asked. -/
structure LargeEnough (sz : ℕ) (env : Env) (g : UcMemManager) (b : MemBlock) (s : Sizes) : Prop where
  /-- Its memory was allocated with enough. -/
  bytes : ∃ n, b.bytes env sz s = some n ∧ sz ≤ n
  /-- It is of the smallest class that will do, and says so. -/
  smallest : sz ≤ biggestMagic → ∃ magic m, b = .ofPool magic m ∧ magic < nrMagics ∧ sz ≤ magicSz magic ∧
    (∀ k < magic, magicSz k < sz) ∧ b.bytes env sz s = some (magicSz magic) ∧ g.getAllocSize b = magicSz magic

/-- **When a block is large enough**, whatever has been allocated and freed before: if it is of a class, or `malloc` has
returned memory for it. -/
theorem largeEnough_iff {szMax : ℕ} {u : Stocked} (h : Relation.ReflTransGen SizedStep (.start szMax) u) (env : Env)
    (sz : ℕ) (hblock : (u.mng.allocSized env sz u.sizes).2.1.isBlock = true) :
    LargeEnough sz env (u.mng.allocSized env sz u.sizes).1 (u.mng.allocSized env sz u.sizes).2.1
        (u.mng.allocSized env sz u.sizes).2.2 ↔
      sz ≤ biggestMagic ∨ env.mallocOk = true := by
  by_cases hsz : sz ≤ biggestMagic
  · refine iff_of_true ?_ (.inl hsz)
    obtain ⟨magic, hmagic, h9, hle, hsmall⟩ := getMagic_spec hsz
    obtain ⟨m, hb, hmem, hsize, halloc⟩ := (UcMemManager.serves_alloc env (filed_of_run h) hmagic).block hblock
    have hbytes : (u.mng.allocSized env sz u.sizes).2.1.bytes env sz (u.mng.allocSized env sz u.sizes).2.2 =
        some (magicSz magic) := by
      rw [hb, MemBlock.bytes, if_pos hmem, hsize]
    exact ⟨⟨_, hbytes, hle⟩, fun _ => ⟨magic, m, hb, Nat.lt_succ_of_le h9, hle, hsmall, hbytes, halloc⟩⟩
  · have hdirect : u.mng.allocSized env sz u.sizes = (u.mng, .direct, u.sizes) := by
      rw [UcMemManager.allocSized, getMagic, if_neg hsz]
    rw [hdirect, or_iff_right hsz]
    constructor
    · rintro ⟨⟨n, hn, -⟩, -⟩
      by_contra hok
      simp [MemBlock.bytes, hok] at hn
    · intro hok
      exact ⟨⟨sz, by simp [MemBlock.bytes, hok], Nat.le_refl sz⟩, fun hle => absurd hle hsz⟩

/-- A block of 40 bytes is freed, and used again for 60. -/
theorem largeEnough_iff_again : ∃ u, Relation.ReflTransGen SizedStep (.start 1280) u ∧
    (u.mng.pools 0).map (·.pool.freelist) = some [⟨0, true⟩] ∧
    (LargeEnough 60 {} (u.mng.allocSized {} 60 u.sizes).1 (u.mng.allocSized {} 60 u.sizes).2.1
        (u.mng.allocSized {} 60 u.sizes).2.2 ↔ 60 ≤ biggestMagic ∨ ({} : Env).mallocOk = true) := by
  have h1 : Relation.ReflTransGen SizedStep (.start 1280) _ := .single ⟨.alloc {} 40, rfl⟩
  have h2 := h1.tail ⟨.free 0 ⟨0, true⟩, rfl⟩
  exact ⟨_, h2, by decide, largeEnough_iff h2 {} 60 (by decide)⟩

/-- A block that is larger than the largest class is returned without memory if `malloc` fails. -/
theorem not_largeEnough : ¬∀ (szMax : ℕ) (u : Stocked), Relation.ReflTransGen SizedStep (.start szMax) u →
    ∀ (env : Env) (sz : ℕ), sz < 2 ^ 64 → (u.mng.allocSized env sz u.sizes).2.1.isBlock = true →
      LargeEnough sz env (u.mng.allocSized env sz u.sizes).1 (u.mng.allocSized env sz u.sizes).2.1
        (u.mng.allocSized env sz u.sizes).2.2 := by
  intro h
  obtain ⟨n, hn, -⟩ := (h 1073741824 (.start 1073741824) .refl { mallocOk := false } (2 ^ 63) (by decide) (by decide)).bytes
  cases hn

end KnvProto.Memory
