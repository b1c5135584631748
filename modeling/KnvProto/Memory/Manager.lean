import KnvProto.Memory.Pool
import Mathlib.Algebra.BigOperators.Group.Finset.Basic
import Mathlib.Algebra.Order.BigOperators.Group.Finset

/-!
# The budget of the pools

`UcMemManager`: one pool for each size class, made when it is first used, and a
limit that is divided among them. A pool that reaches its share takes from the
shares of the others, by `Shrink`.

## The model

The pools of a thread are a function of their class. What `new` and `malloc` do in a
call is given with the call. `SetMaxSize` has been called before, so the limit is a
constant; a block that is larger than the largest class belongs to no pool.

The check of `UcMemPool::Alloc` compares the limit with `sz_total` alone. That is enough
if the pool has no free memory when it allocates more, which `Shrink` makes untrue: it
puts the object whose memory it has freed in front of those that still have theirs
(`not_within`). `within_of_calls` is what holds when no allocation meets such an object.
-/

namespace KnvProto.Memory

/-- The number of size classes, `nr_magics`. -/
abbrev nrMagics : ℕ := 10

/-- `UcMemManager`, with the pools in `magics`. -/
structure UcMemManager where
  /-- `sz_max`. -/
  szMax : ℕ
  /-- `magics[i].pool`. -/
  pools : ℕ → Option UcMemPool := fun _ => none

/-- What `new` and `malloc` do in a call. -/
structure Env where
  /-- Whether a pool can be made for a class. -/
  newPool : ℕ → Bool := fun _ => true
  /-- Whether an object can be made for the pool of a class. -/
  newObj : ℕ → Bool := fun _ => true
  /-- Whether `malloc` succeeds. -/
  mallocOk : Bool := true

/-- What `UcMemManager::Alloc` returns. -/
inductive MemBlock where
  /-- `NULL`. -/
  | null
  /-- A block that belongs to no pool. -/
  | direct
  /-- A block of the pool of a class. -/
  | ofPool (magic : ℕ) (m : UcMem)

namespace UcMemManager

/-- Put a pool back. -/
def setPool (magic : ℕ) (p : UcMemPool) (g : UcMemManager) : UcMemManager :=
  { g with pools := fun i => if i = magic then some p else g.pools i }

/-- `GetPool`. -/
def getPool (env : Env) (magic : ℕ) (g : UcMemManager) : UcMemManager × Option UcMemPool :=
  match g.pools magic with
  | some p => (g, some p)
  | none =>
    if env.newPool magic then
      let p : UcMemPool := { szEach := magicSz magic, szMax := g.szMax / nrMagics }
      (g.setPool magic p, some p)
    else (g, none)

/-- A turn of a loop of `Shrink`: what the pool of a class gives, if there is one. -/
def shrinkPool (env : Env) (i : ℕ) (g : UcMemManager) : UcMemManager × Option ℕ :=
  match g.getPool env i with
  | (g, none) => (g, none)
  | (g, some p) =>
    let r := p.shrink (env.newObj i)
    (g.setPool i r.pool, some r.shk)

/-- The loop of `Shrink` over the larger pools, which stops as soon as there is enough. -/
def shrinkLarger (env : Env) (szNeeded : ℕ) : List ℕ → UcMemManager → ℕ → UcMemManager × ℕ × Bool
  | [], g, shk => (g, shk, false)
  | i :: is, g, shk =>
    match g.shrinkPool env i with
    | (g, none) => shrinkLarger env szNeeded is g shk
    | (g, some k) => if szNeeded ≤ shk + k then (g, shk + k, true) else shrinkLarger env szNeeded is g (shk + k)

/-- The loop of `Shrink` over the smaller pools. -/
def shrinkSmaller (env : Env) : List ℕ → UcMemManager → ℕ → UcMemManager × ℕ
  | [], g, shk => (g, shk)
  | i :: is, g, shk =>
    match g.shrinkPool env i with
    | (g, none) => shrinkSmaller env is g shk
    | (g, some k) => shrinkSmaller env is g (shk + k)

/-- `Shrink`. -/
def shrink (env : Env) (magic : ℕ) (g : UcMemManager) : UcMemManager × ℕ :=
  match g.shrinkLarger env (magicSz magic) (List.range' (magic + 1) (nrMagics - 1 - magic)).reverse 0 with
  | (g, shk, true) => (g, shk)
  | (g, shk, false) => g.shrinkSmaller env (List.range magic).reverse shk

/-- `UcMemPool::Alloc` of the pool of a class. -/
def allocFrom (env : Env) (magic : ℕ) (p : UcMemPool) (g : UcMemManager) : UcMemManager × Alloc :=
  let r := p.alloc (env.newObj magic) env.mallocOk
  (g.setPool magic r.pool, r)

/-- What is returned for the outcome of `UcMemPool::Alloc`. -/
def blockOf (magic : ℕ) (r : Alloc) : MemBlock := match r.block with
  | some m => .ofPool magic m
  | none => .null

/-- What `Alloc` does when the pool of the class has reached its limit: it tries again after shrinking the others. -/
def allocAfterShrink (env : Env) (magic : ℕ) (g : UcMemManager) : UcMemManager × MemBlock :=
  let (g, shk) := g.shrink env magic
  if shk = 0 then (g, .null)
  else
    match g.pools magic with
    | some p =>
      let (g, r) := g.allocFrom env magic { p with szMax := p.szMax + shk }
      (g, blockOf magic r)
    | none => (g, .null)

/-- `Alloc`. -/
def alloc (env : Env) (sz : ℕ) (g : UcMemManager) : UcMemManager × MemBlock :=
  match getMagic sz with
  | none => (g, .direct)
  | some magic =>
    match g.getPool env magic with
    | (g, none) => (g, .null)
    | (g, some p) =>
      let (g, r) := g.allocFrom env magic p
      if r.block.isNone && r.exceedLimit then g.allocAfterShrink env magic else (g, blockOf magic r)

/-- `Free`, of a block of a pool. -/
def free (magic : ℕ) (m : UcMem) (g : UcMemManager) : UcMemManager :=
  match g.pools magic with
  | some p => g.setPool magic (p.free m).1
  | none => g

end UcMemManager

/-! ### Calls -/

/-- The manager, and the blocks that each of its pools has handed out. -/
structure Managed where
  /-- The manager. -/
  mng : UcMemManager
  /-- The blocks. -/
  out : ℕ → List UcMem := fun _ => []

/-- The calls of the manager. A block that belongs to no pool is simply deleted. -/
inductive MemCall where
  /-- `Alloc`. -/
  | alloc (env : Env) (sz : ℕ)
  /-- `Free`. -/
  | free (magic : ℕ) (m : UcMem)

/-- The blocks with one more. -/
def handOut (b : MemBlock) (out : ℕ → List UcMem) : ℕ → List UcMem := match b with
  | .ofPool magic m => fun i => if i = magic then m :: out i else out i
  | _ => out

/-- A call. Only a block that is handed out may be freed. -/
def MemCall.run : MemCall → Managed → Option Managed
  | alloc env sz, u =>
    let (g, b) := u.mng.alloc env sz
    some ⟨g, handOut b u.out⟩
  | free magic m, u =>
    if m ∈ u.out magic then some ⟨u.mng.free magic m, fun i => if i = magic then (u.out i).erase m else u.out i⟩ else none

/-- A manager that has not been used, with its limit. -/
def Managed.start (szMax : ℕ) : Managed := ⟨{ szMax := szMax }, fun _ => []⟩

/-- One call after the other, each as `P` allows. -/
def MemStep (P : Managed → MemCall → Prop) (u u' : Managed) : Prop := ∃ call, P u call ∧ call.run u = some u'

/-- Several calls. -/
def runAll : List MemCall → Managed → Option Managed
  | [], u => some u
  | call :: calls, u => (call.run u).bind (runAll calls)

/-! ### The budget -/

/-- The share of the limit that a class has, before its pool is made and after. -/
def UcMemManager.share (g : UcMemManager) (i : ℕ) : ℕ := match g.pools i with
  | some p => p.szMax
  | none => g.szMax / nrMagics

/-- All shares together. -/
def UcMemManager.budget (g : UcMemManager) : ℕ := ∑ i ∈ Finset.range nrMagics, g.share i

/-- Every pool keeps its accounts, and holds no more than its limit. -/
structure Within (g : UcMemManager) (out : ℕ → List UcMem) : Prop where
  /-- A pool that has been made. -/
  pool : ∀ i p, g.pools i = some p → p.szEach = magicSz i ∧ Accounts p (out i) ∧ p.szTotal + p.szFree ≤ p.szMax
  /-- Nothing is handed out before the pool is made. -/
  unmade : ∀ i, g.pools i = none → out i = []

namespace UcMemManager

variable {g g' : UcMemManager} {out : ℕ → List UcMem} (env : Env)

@[simp] theorem setPool_same (i : ℕ) (p : UcMemPool) (g : UcMemManager) : (g.setPool i p).pools i = some p := if_pos rfl

theorem setPool_other {i j : ℕ} (p : UcMemPool) (g : UcMemManager) (h : j ≠ i) : (g.setPool i p).pools j = g.pools j :=
  if_neg h

theorem share_of_pool {i : ℕ} {p : UcMemPool} (h : g.pools i = some p) : g.share i = p.szMax := by
  rw [share, h]

theorem budget_of_max {i : ℕ} {p q : UcMemPool} (hp : g.pools i = some p) (hmax : q.szMax = p.szMax) :
    (g.setPool i q).budget = g.budget := by
  refine Finset.sum_congr rfl fun j _ => ?_
  by_cases hji : j = i
  · subst hji
    rw [share_of_pool (setPool_same ..), share_of_pool hp, hmax]
  · rw [share, share, setPool_other q g hji]
    rfl

/-- A pool that is put back takes its limit from the budget. -/
theorem budget_setPool {i : ℕ} (hi : i < nrMagics) (p : UcMemPool) (g : UcMemManager) :
    (g.setPool i p).budget + g.share i = g.budget + p.szMax := by
  have hmem : i ∈ Finset.range nrMagics := Finset.mem_range.mpr hi
  have hrest : ∑ j ∈ (Finset.range nrMagics).erase i, (g.setPool i p).share j =
      ∑ j ∈ (Finset.range nrMagics).erase i, g.share j := by
    refine Finset.sum_congr rfl fun j hj => ?_
    rw [share, share, setPool_other p g (Finset.ne_of_mem_erase hj)]
    rfl
  have hnew := Finset.add_sum_erase _ (g.setPool i p).share hmem
  have hold := Finset.add_sum_erase _ g.share hmem
  rw [hrest, share_of_pool (setPool_same i p g)] at hnew
  rw [budget, budget, ← hnew, ← hold]
  omega

theorem within_setPool {out' : ℕ → List UcMem} {i : ℕ} {p : UcMemPool} (h : Within g out)
    (hout : ∀ j, j ≠ i → out' j = out j) (heach : p.szEach = magicSz i) (hacc : Accounts p (out' i))
    (hmax : p.szTotal + p.szFree ≤ p.szMax) : Within (g.setPool i p) out' := by
  refine ⟨fun j q hq => ?_, fun j hj => ?_⟩
  · by_cases hji : j = i
    · subst hji
      rw [setPool_same] at hq
      cases hq
      exact ⟨heach, hacc, hmax⟩
    · rw [setPool_other p g hji] at hq
      rw [hout j hji]
      exact h.pool j q hq
  · by_cases hji : j = i
    · subst hji
      rw [setPool_same] at hj
      cases hj
    · rw [setPool_other p g hji] at hj
      rw [hout j hji]
      exact h.unmade j hj

/-- What part of a call that gives `shk` away does to the pools. -/
structure Moves (g g' : UcMemManager) (out : ℕ → List UcMem) (shk : ℕ) : Prop where
  within : Within g' out
  limit : g'.szMax = g.szMax
  budget : g'.budget + shk = g.budget

theorem Moves.refl (h : Within g out) : Moves g g out 0 := ⟨h, rfl, rfl⟩

theorem Moves.trans {g₁ g₂ g₃ : UcMemManager} {k l : ℕ} (h : Moves g₁ g₂ out k) (h' : Moves g₂ g₃ out l) :
    Moves g₁ g₃ out (k + l) :=
  ⟨h'.within, h'.limit.trans h.limit, by have := h.budget; have := h'.budget; omega⟩

/-- **`GetPool`** moves nothing. -/
theorem getPool_cases {i : ℕ} (hi : i < nrMagics) (h : Within g out) :
    (g.getPool env i = (g, none)) ∨ ∃ g' p, g.getPool env i = (g', some p) ∧ Moves g g' out 0 ∧ g'.pools i = some p ∧
      ∀ j, j ≠ i → g'.pools j = g.pools j := by
  unfold getPool
  cases hp : g.pools i with
  | some p => exact .inr ⟨g, p, rfl, .refl h, hp, fun _ _ => rfl⟩
  | none =>
    simp only
    split
    swap
    · exact .inl rfl
    refine .inr ⟨_, _, rfl, ⟨?_, rfl, ?_⟩, setPool_same .., fun j hj => setPool_other _ g hj⟩
    · refine within_setPool h (fun _ _ => rfl) rfl ?_ (Nat.zero_le _)
      rw [h.unmade i hp]
      exact accounts_start _ _
    · have hbudget := budget_setPool hi { szEach := magicSz i, szMax := g.szMax / nrMagics } g
      rw [share, hp] at hbudget
      exact Nat.add_right_cancel hbudget

/-- **A turn of a loop of `Shrink`.** -/
theorem shrinkPool_cases {i : ℕ} (hi : i < nrMagics) (h : Within g out) :
    (g.shrinkPool env i = (g, none)) ∨ ∃ g' k, g.shrinkPool env i = (g', some k) ∧ Moves g g' out k ∧
      ∀ j, j ≠ i → g'.pools j = g.pools j := by
  unfold shrinkPool
  obtain hget | ⟨g', p, hget, hm, hp, hframe⟩ := getPool_cases env hi h
  · rw [hget]
    exact .inl rfl
  rw [hget]
  obtain ⟨heach, hacc, hmax⟩ := hm.within.pool i p hp
  have hs := UcMemPool.shrinks_shrink hacc (env.newObj i)
  obtain ⟨hmax', hbal⟩ := hs.within hmax
  refine .inr ⟨_, _, rfl, ?_, fun j hj => (setPool_other _ g' hj).trans (hframe j hj)⟩
  refine Nat.zero_add (p.shrink (env.newObj i)).shk ▸ hm.trans ⟨?_, rfl, ?_⟩
  · exact within_setPool hm.within (fun _ _ => rfl) (hs.each.trans heach) hs.accounts hmax'
  · have hbudget := budget_setPool hi (p.shrink (env.newObj i)).pool g'
    rw [share_of_pool hp] at hbudget
    omega

theorem shrinkLarger_moves (szNeeded : ℕ) : ∀ (is : List ℕ) {g₀ g : UcMemManager} {shk : ℕ}, (∀ i ∈ is, i < nrMagics) →
    Moves g₀ g out shk → Moves g₀ (g.shrinkLarger env szNeeded is shk).1 out (g.shrinkLarger env szNeeded is shk).2.1 ∧
      ∀ j, j ∉ is → (g.shrinkLarger env szNeeded is shk).1.pools j = g.pools j := by
  intro is
  induction is with
  | nil => exact fun _ hm => ⟨hm, fun _ _ => rfl⟩
  | cons i is ih =>
    intro g₀ g shk his hm
    obtain ⟨hi, his⟩ := List.forall_mem_cons.mp his
    rw [shrinkLarger]
    obtain hturn | ⟨g', k, hturn, hk, hframe⟩ := shrinkPool_cases env hi hm.within
    · rw [hturn]
      obtain ⟨hm', hframe'⟩ := ih his hm
      exact ⟨hm', fun j hj => hframe' j fun hj' => hj (List.mem_cons_of_mem _ hj')⟩
    · rw [hturn]
      simp only
      split
      · exact ⟨hm.trans hk, fun j hj => hframe j fun hj' => hj (hj' ▸ List.mem_cons_self ..)⟩
      · obtain ⟨hm', hframe'⟩ := ih his (hm.trans hk)
        refine ⟨hm', fun j hj => ?_⟩
        rw [hframe' j fun hj' => hj (List.mem_cons_of_mem _ hj')]
        exact hframe j fun hj' => hj (hj' ▸ List.mem_cons_self ..)

theorem shrinkSmaller_moves : ∀ (is : List ℕ) {g₀ g : UcMemManager} {shk : ℕ}, (∀ i ∈ is, i < nrMagics) →
    Moves g₀ g out shk → Moves g₀ (g.shrinkSmaller env is shk).1 out (g.shrinkSmaller env is shk).2 ∧
      ∀ j, j ∉ is → (g.shrinkSmaller env is shk).1.pools j = g.pools j := by
  intro is
  induction is with
  | nil => exact fun _ hm => ⟨hm, fun _ _ => rfl⟩
  | cons i is ih =>
    intro g₀ g shk his hm
    obtain ⟨hi, his⟩ := List.forall_mem_cons.mp his
    rw [shrinkSmaller]
    obtain hturn | ⟨g', k, hturn, hk, hframe⟩ := shrinkPool_cases env hi hm.within
    · rw [hturn]
      obtain ⟨hm', hframe'⟩ := ih his hm
      exact ⟨hm', fun j hj => hframe' j fun hj' => hj (List.mem_cons_of_mem _ hj')⟩
    · rw [hturn]
      obtain ⟨hm', hframe'⟩ := ih his (hm.trans hk)
      refine ⟨hm', fun j hj => ?_⟩
      rw [hframe' j fun hj' => hj (List.mem_cons_of_mem _ hj')]
      exact hframe j fun hj' => hj (hj' ▸ List.mem_cons_self ..)

/-- **`Shrink` takes from the budget what it returns**, and nothing from the pool that asks. -/
theorem shrink_moves {magic : ℕ} (hmagic : magic < nrMagics) (h : Within g out) :
    Moves g (g.shrink env magic).1 out (g.shrink env magic).2 ∧
      (g.shrink env magic).1.pools magic = g.pools magic := by
  have hlarge : ∀ i ∈ (List.range' (magic + 1) (nrMagics - 1 - magic)).reverse, magic < i ∧ i < nrMagics := by
    intro i hi
    rw [List.mem_reverse, List.mem_range'_1] at hi
    omega
  have hsmall : ∀ i ∈ (List.range magic).reverse, i < magic := by
    intro i hi
    rwa [List.mem_reverse, List.mem_range] at hi
  obtain ⟨hm, hframe⟩ := shrinkLarger_moves env (magicSz magic) _ (fun i hi => (hlarge i hi).2) (Moves.refl h)
  have hkept := hframe magic fun hmem => Nat.lt_irrefl _ (hlarge magic hmem).1
  unfold shrink
  generalize g.shrinkLarger env (magicSz magic) (List.range' (magic + 1) (nrMagics - 1 - magic)).reverse 0 = r at *
  obtain ⟨g', shk, _ | _⟩ := r
  · obtain ⟨hm', hframe'⟩ := shrinkSmaller_moves env (List.range magic).reverse
      (fun i hi => Nat.lt_trans (hsmall i hi) hmagic) hm
    exact ⟨hm', (hframe' magic fun hmem => Nat.lt_irrefl _ (hsmall magic hmem)).trans hkept⟩
  · exact ⟨hm, hkept⟩

end UcMemManager

/-! ### Allocations -/

/-- A pool whose next object lacks memory has no free memory, or has room for both: then the check of `Alloc` counts
all that the pool holds. -/
def UcMemPool.Counted (p : UcMemPool) : Prop :=
  ∀ m, p.pool.freelist.head? = some m → m.mem = false → p.szFree = 0 ∨ p.szTotal + p.szFree + p.szEach ≤ p.szMax

namespace UcMemPool

variable {p : UcMemPool} {out : List UcMem}

/-- What `Counted` says of the object that is taken. -/
theorem Counted.take {m : UcMem} {o : ObjPool} (h : Counted p) (hacc : Accounts p out) (ht : ObjPool.Takes p.pool m o)
    (hm : m.mem = false) : p.szFree = 0 ∨ p.szTotal + p.szFree + p.szEach ≤ p.szMax := by
  cases ht with
  | first hl => exact h m (by rw [hl]; rfl) hm
  | made hl =>
    left
    rw [hacc.free, ObjPool.stock, hl]
    rfl

/-- **`Alloc` keeps a counted pool within its limit.** -/
theorem alloc_within (hacc : Accounts p out) (h : Counted p) (hmax : p.szTotal + p.szFree ≤ p.szMax)
    (newOk mallocOk : Bool) :
    (p.alloc newOk mallocOk).pool.szEach = p.szEach ∧ (p.alloc newOk mallocOk).pool.szMax = p.szMax ∧
      (p.alloc newOk mallocOk).pool.szTotal + (p.alloc newOk mallocOk).pool.szFree ≤ p.szMax ∧
      ((p.alloc newOk mallocOk).exceedLimit = true → (p.alloc newOk mallocOk).pool.szFree = 0) := by
  have hcases := alloc_cases newOk mallocOk p
  generalize p.alloc newOk mallocOk = r at hcases
  cases hcases with
  | noObject => exact ⟨rfl, rfl, hmax, fun he => nomatch he⟩
  | noRoom ht hm hroom =>
    refine ⟨rfl, rfl, hmax, fun _ => ?_⟩
    rcases h.take hacc ht hm with hfree | hfits
    · exact hfree
    · omega
  | noMemory _ _ _ => exact ⟨rfl, rfl, hmax, fun he => nomatch he⟩
  | fresh ht hm hroom =>
    refine ⟨rfl, rfl, ?_, fun he => nomatch he⟩
    simp only
    rcases h.take hacc ht hm with hfree | hfits <;> omega
  | bad ht hm hfree => exact absurd hfree (Nat.not_lt.mpr (le_szFree hacc (stock_pos ht hm)))
  | old _ _ hle =>
    refine ⟨rfl, rfl, ?_, fun he => nomatch he⟩
    simp only
    omega

/-- Beyond the condition, memory that the check of `Alloc` lets through is beyond the limit. -/
theorem exceeds_of_not_counted (h : ¬Counted p) (hroom : p.szTotal + p.szEach ≤ p.szMax) (newOk : Bool) :
    (p.alloc newOk true).pool.szMax < (p.alloc newOk true).pool.szTotal + (p.alloc newOk true).pool.szFree := by
  simp only [Counted, not_forall, not_or, Nat.not_le] at h
  obtain ⟨m, hhead, hm, -, hlt⟩ := h
  obtain ⟨rest, hl⟩ := List.head?_eq_some_iff.mp hhead
  have hnew : p.pool.new newOk = (some m, { p.pool with freelist := rest }) := by rw [ObjPool.new, hl]
  rw [alloc, hnew]
  simp only [hm, Bool.not_false, if_true, if_neg (Nat.not_lt.mpr hroom), Bool.not_true, Bool.false_eq_true, if_false]
  omega

end UcMemPool

/-- The condition on a call: an allocation finds the pool of its class counted, if there is one. -/
def Counts (u : Managed) : MemCall → Prop
  | .alloc _ sz => ∀ magic p, getMagic sz = some magic → u.mng.pools magic = some p → p.Counted
  | .free _ _ => True

namespace UcMemManager

variable {g g' : UcMemManager} {out : ℕ → List UcMem} (env : Env)

theorem handOut_blockOf (magic : ℕ) (r : Alloc) (out : ℕ → List UcMem) :
    handOut (blockOf magic r) out magic = r.block.toList ++ out magic ∧
      ∀ j, j ≠ magic → handOut (blockOf magic r) out j = out j := by
  unfold blockOf
  cases r.block with
  | none => exact ⟨rfl, fun _ _ => rfl⟩
  | some m => exact ⟨if_pos rfl, fun j hj => if_neg hj⟩

/-- The pool of a class allocates, with what its limit has become. -/
theorem allocFrom_within {magic : ℕ} {p : UcMemPool} (hmagic : magic < nrMagics) (h : Within g out)
    (heach : p.szEach = magicSz magic) (hacc : Accounts p (out magic)) (hmax : p.szTotal + p.szFree ≤ p.szMax)
    (hcount : p.Counted) :
    Within (g.allocFrom env magic p).1 (handOut (blockOf magic (g.allocFrom env magic p).2) out) ∧
      (g.allocFrom env magic p).1.budget + g.share magic = g.budget + p.szMax := by
  obtain ⟨heach', hmax', hfits, -⟩ := UcMemPool.alloc_within hacc hcount hmax (env.newObj magic) env.mallocOk
  obtain ⟨hsame, hother⟩ := handOut_blockOf magic (p.alloc (env.newObj magic) env.mallocOk) out
  refine ⟨within_setPool h hother (heach'.trans heach) ?_ (hmax'.symm ▸ hfits), ?_⟩
  · have hacc' := (UcMemPool.accounts_alloc hacc (env.newObj magic) env.mallocOk).1
    rw [← hsame] at hacc'
    exact hacc'
  · have hbudget := budget_setPool hmagic (p.alloc (env.newObj magic) env.mallocOk).pool g
    rw [hmax'] at hbudget
    exact hbudget

/-- A pool without free memory tries again with what the others give up. -/
theorem allocAfterShrink_within {magic : ℕ} {p : UcMemPool} (hmagic : magic < nrMagics) (h : Within g out)
    (hp : g.pools magic = some p) (hfree : p.szFree = 0) :
    Within (g.allocAfterShrink env magic).1 (handOut (g.allocAfterShrink env magic).2 out) ∧
      (g.allocAfterShrink env magic).1.szMax = g.szMax ∧ (g.allocAfterShrink env magic).1.budget = g.budget := by
  obtain ⟨hm, hsame⟩ := shrink_moves env hmagic h
  have hbudget := hm.budget
  rw [hp] at hsame
  unfold allocAfterShrink
  simp only
  split
  · next hshk =>
    rw [hshk] at hbudget
    exact ⟨hm.within, hm.limit, hbudget⟩
  · rw [hsame]
    obtain ⟨heach, hacc, hmax⟩ := h.pool magic p hp
    have hacc' := UcMemPool.accounts_withMax hacc (p.szMax + (g.shrink env magic).2)
    have hmax' := Nat.le_trans hmax (Nat.le_add_right p.szMax (g.shrink env magic).2)
    obtain ⟨hw, hb⟩ := @allocFrom_within _ _ env _ { p with szMax := p.szMax + (g.shrink env magic).2 } hmagic hm.within
      heach hacc' hmax' (fun _ _ _ => .inl hfree)
    refine ⟨hw, hm.limit, ?_⟩
    rw [share_of_pool hsame] at hb
    simp only at hb ⊢
    omega

/-- What `GetPool` gives is counted, if the pool that was there is. -/
theorem counted_getPool {i : ℕ} {p : UcMemPool} (hget : g.getPool env i = (g', some p))
    (hcount : ∀ q, g.pools i = some q → q.Counted) : p.Counted := by
  unfold getPool at hget
  cases hq : g.pools i with
  | some q =>
    rw [hq] at hget
    cases hget
    exact hcount _ hq
  | none =>
    rw [hq] at hget
    simp only at hget
    split at hget
    · cases hget
      exact fun _ _ _ => .inl rfl
    · cases hget

theorem lt_of_getMagic {sz magic : ℕ} (h : getMagic sz = some magic) : magic < nrMagics := by
  have hsz : sz ≤ biggestMagic := by
    by_contra hsz
    rw [getMagic, if_neg hsz] at h
    cases h
  obtain ⟨m, hm, hm9, -⟩ := getMagic_spec hsz
  cases h.symm.trans hm
  exact Nat.lt_succ_of_le hm9

/-- **`UcMemManager::Alloc`** keeps every pool within its limit, and the budget. -/
theorem alloc_within {sz : ℕ} (h : Within g out)
    (hcount : ∀ magic p, getMagic sz = some magic → g.pools magic = some p → p.Counted) :
    Within (g.alloc env sz).1 (handOut (g.alloc env sz).2 out) ∧ (g.alloc env sz).1.szMax = g.szMax ∧
      (g.alloc env sz).1.budget = g.budget := by
  unfold alloc
  cases hmagic : getMagic sz with
  | none => exact ⟨h, rfl, rfl⟩
  | some magic =>
    have hlt := lt_of_getMagic hmagic
    simp only
    obtain hget | ⟨g₁, p, hget, hm₁, hp, -⟩ := getPool_cases env hlt h
    · rw [hget]
      exact ⟨h, rfl, rfl⟩
    rw [hget]
    obtain ⟨heach, hacc, hmax⟩ := hm₁.within.pool magic p hp
    have hp0 : p.Counted := counted_getPool env hget fun q => hcount magic q hmagic
    obtain ⟨hw₂, hb₂⟩ := allocFrom_within env hlt hm₁.within heach hacc hmax hp0
    obtain ⟨-, -, -, hexceed⟩ := UcMemPool.alloc_within hacc hp0 hmax (env.newObj magic) env.mallocOk
    have hbudget₁ : g₁.budget = g.budget := hm₁.budget
    rw [share_of_pool hp] at hb₂
    have hb₂' := (Nat.add_right_cancel hb₂).trans hbudget₁
    simp only
    split
    · next hcond =>
      obtain ⟨hnone, hlimit⟩ := Bool.and_eq_true_iff.mp hcond
      have hblock : (g₁.allocFrom env magic p).2.block = none := Option.isNone_iff_eq_none.mp hnone
      simp only [blockOf, hblock, handOut] at hw₂
      obtain ⟨hw₃, hl₃, hb₃⟩ := allocAfterShrink_within env hlt hw₂ (setPool_same ..) (hexceed hlimit)
      exact ⟨hw₃, hl₃.trans hm₁.limit, hb₃.trans hb₂'⟩
    · exact ⟨hw₂, hm₁.limit, hb₂'⟩

/-- **`UcMemManager::Free`** keeps every pool within its limit, and the budget. -/
theorem free_within {magic : ℕ} {m : UcMem} (h : Within g out) (hm : m ∈ out magic) :
    Within (g.free magic m) (fun i => if i = magic then (out i).erase m else out i) ∧ (g.free magic m).szMax = g.szMax ∧
      (g.free magic m).budget = g.budget := by
  unfold free
  cases hp : g.pools magic with
  | none =>
    rw [h.unmade magic hp] at hm
    exact absurd hm List.not_mem_nil
  | some p =>
    obtain ⟨heach, hacc, hmax⟩ := h.pool magic p hp
    have hacc' := (UcMemPool.accounts_free hacc hm).1
    have htotal : p.szEach ≤ p.szTotal := by
      rw [hacc.total]
      exact Nat.le_mul_of_pos_right _ (List.length_pos_of_mem hm)
    have hfree : (p.free m).1 = { p with
        pool := p.pool.delete m, szFree := p.szFree + p.szEach, szTotal := p.szTotal - p.szEach } := by
      rw [UcMemPool.free, if_neg (Nat.not_lt.mpr htotal)]
    rw [hfree] at hacc'
    simp only [hfree]
    refine ⟨within_setPool h (fun j hj => if_neg hj) heach ?_ ?_, rfl, budget_of_max hp rfl⟩
    · simp only [if_true]
      exact hacc'
    · simp only
      omega

end UcMemManager

/-! ### Runs -/

/-- The state of the budget, in every state of a run. -/
structure Balanced (szMax : ℕ) (u : Managed) : Prop where
  within : Within u.mng u.out
  limit : u.mng.szMax = szMax
  budget : u.mng.budget = nrMagics * (szMax / nrMagics)

theorem balanced_start (szMax : ℕ) : Balanced szMax (.start szMax) :=
  ⟨⟨fun _ _ hp => (nomatch hp), fun _ _ => rfl⟩, rfl, by
    have hshare : ∀ i ∈ Finset.range nrMagics, (Managed.start szMax).mng.share i = szMax / nrMagics := fun _ _ => rfl
    rw [UcMemManager.budget, Finset.sum_const_nat hshare, Finset.card_range]⟩

/-- A call whose allocation counts all that the pool holds keeps the budget. -/
theorem balanced_run {szMax : ℕ} {u u' : Managed} {call : MemCall} (h : Balanced szMax u) (hcount : Counts u call)
    (hrun : call.run u = some u') : Balanced szMax u' := by
  cases call with
  | alloc env sz =>
    cases hrun
    obtain ⟨hw, hlimit, hbudget⟩ := UcMemManager.alloc_within env h.within hcount
    exact ⟨hw, hlimit.trans h.limit, hbudget.trans h.budget⟩
  | free magic m =>
    rw [MemCall.run] at hrun
    split at hrun
    · next hm =>
      cases hrun
      obtain ⟨hw, hlimit, hbudget⟩ := UcMemManager.free_within h.within hm
      exact ⟨hw, hlimit.trans h.limit, hbudget.trans h.budget⟩
    · cases hrun

/-- The pools that have been made share out no more than the limit. -/
theorem sum_szMax_le {g : UcMemManager} :
    ∑ i ∈ Finset.range nrMagics, (g.pools i).elim 0 UcMemPool.szMax ≤ g.budget := by
  refine Finset.sum_le_sum fun i _ => ?_
  rw [UcMemManager.share]
  cases g.pools i with
  | none => exact Nat.zero_le _
  | some p => exact Nat.le_refl _

/-- **In every state of every run** of allocations that count all that a pool holds, and of releases, every pool holds
no more than its limit, the limits add up to no more than the limit of the manager, and with the shares of the pools
that have not been made yet they are what they were at the beginning: what one pool gives up, another one has got. -/
theorem within_of_calls {szMax : ℕ} {u : Managed}
    (h : Relation.ReflTransGen (MemStep Counts) (.start szMax) u) :
    (∀ i p, u.mng.pools i = some p → p.szTotal = p.szEach * (u.out i).length ∧ p.szFree = p.szEach * p.pool.stock ∧
        p.szTotal + p.szFree ≤ p.szMax) ∧
      ∑ i ∈ Finset.range nrMagics, (u.mng.pools i).elim 0 UcMemPool.szMax ≤ szMax ∧
      u.mng.budget = nrMagics * (szMax / nrMagics) := by
  have hb : Balanced szMax u := by
    induction h with
    | refl => exact balanced_start szMax
    | tail _ hstep ih =>
      obtain ⟨call, hcount, hrun⟩ := hstep
      exact balanced_run ih hcount hrun
  refine ⟨fun i p hp => ?_, ?_, hb.budget⟩
  · obtain ⟨-, hacc, hmax⟩ := hb.within.pool i p hp
    exact ⟨hacc.total, hacc.free, hmax⟩
  · calc ∑ i ∈ Finset.range nrMagics, (u.mng.pools i).elim 0 UcMemPool.szMax ≤ u.mng.budget := sum_szMax_le
      _ = nrMagics * (szMax / nrMagics) := hb.budget
      _ ≤ szMax := Nat.mul_div_le szMax nrMagics

theorem reached_of_runAll {P : Managed → MemCall → Prop} : ∀ {calls : List MemCall} {u u' : Managed},
    (∀ v call, P v call) → runAll calls u = some u' → Relation.ReflTransGen (MemStep P) u u' := by
  intro calls
  induction calls with
  | nil =>
    intro u u' _ h
    cases h
    exact .refl
  | cons call calls ih =>
    intro u u' hP h
    rw [runAll] at h
    obtain ⟨v, hv, h⟩ := Option.bind_eq_some_iff.mp h
    exact .head ⟨call, hP u call, hv⟩ (ih hP h)

/-- Two small blocks, both freed, and a larger one that takes the memory of one of them: the next small one gets memory
of its own beside the one that is still there. -/
def crowd : List MemCall :=
  [.alloc {} 64, .alloc {} 64, .free 0 ⟨1, true⟩, .free 0 ⟨0, true⟩, .alloc {} 256, .alloc {} 64]

/-- Without the condition a pool comes to hold more than its limit. -/
theorem not_within : ¬∀ (szMax : ℕ) (u : Managed), Relation.ReflTransGen (MemStep fun _ _ => True) (.start szMax) u →
    ∀ i p, u.mng.pools i = some p → p.szTotal + p.szFree ≤ p.szMax := by
  intro h
  have hend : (((runAll crowd (.start 1280)).bind fun u => u.mng.pools 0).map fun p => (p.szTotal, p.szFree, p.szMax)) =
      some (64, 64, 64) := by decide
  obtain ⟨p, hp, hval⟩ := Option.map_eq_some_iff.mp hend
  obtain ⟨u, hu, hp⟩ := Option.bind_eq_some_iff.mp hp
  have hle := h 1280 u (reached_of_runAll (fun _ _ => trivial) hu) 0 p hp
  simp only [Prod.mk.injEq] at hval
  omega

/-- Two small blocks and a large one that there is no room for. -/
theorem within_of_calls_small : ∃ u, Relation.ReflTransGen (MemStep Counts) (.start 1280) u ∧
    u.out 0 = [⟨1, true⟩, ⟨0, true⟩] ∧ u.mng.budget = nrMagics * (1280 / nrMagics) := by
  have h1 : Relation.ReflTransGen (MemStep Counts) (.start 1280) _ :=
    .single ⟨.alloc {} 64, fun _ _ _ hp => (nomatch hp), rfl⟩
  have h2 := h1.tail ⟨.alloc {} 64, fun magic p hmagic hp => ?_, rfl⟩
  · exact ⟨_, h2, rfl, (within_of_calls h2).2.2⟩
  · obtain rfl : 0 = magic := Option.some.inj ((show getMagic 64 = some 0 by decide).symm.trans hmagic)
    obtain rfl := Option.some.inj hp
    exact fun m hm => nomatch hm

end KnvProto.Memory
