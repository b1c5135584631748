import KnvProto.Memory.SizeClass
import Mathlib.Data.List.Count
import Mathlib.Logic.Relation

/-!
# A pool of blocks

`UcMemPool`: blocks of one size that are handed out and taken back, and the object
pool that keeps the ones taken back.

## The model

An object is its address, a number that no other object of the pool has, and
whether its `mem` points to memory. Whether `new` and `malloc` succeed is told by
the caller. What is handed out is kept beside the pool, in `Use`: only such a block
is given to `Free`.

The numbers are not bounded: `sz_total` and `sz_free` add up the sizes of blocks that
lie apart in one address space.

`accounts_of_uses`: in every state of every use the two counters are the sizes of the
blocks handed out and of the free objects with memory.
-/

namespace KnvProto.Memory

/-- `UcMem`. -/
structure UcMem where
  /-- Its address. -/
  addr : ℕ
  /-- `mem != NULL`. -/
  mem : Bool := false
  deriving DecidableEq

/-- What is reported to `Attr_API`. -/
inductive Attr where
  /-- `ATTR_OBJ_POOL_NEW_OBJ_FAIL` and `ATTR_MEM_POOL_NEW_OBJ_FAIL`. -/
  | newObjFail
  /-- `ATTR_MEM_POOL_NEW_OBJ`. -/
  | newObj
  /-- `ATTR_MEM_POOL_LIMIT_REACHED`. -/
  | limitReached
  /-- `ATTR_MEM_POOL_MALLOC_FAIL`. -/
  | mallocFail
  /-- `ATTR_MEM_POOL_SHRINK_SPACE`. -/
  | shrinkSpace
  /-- `ATTR_MEM_POOL_BUG_SZ_FREE_BAD1`. -/
  | bugSzFreeBad1
  /-- `ATTR_MEM_POOL_BUG_SZ_FREE_BAD2`. -/
  | bugSzFreeBad2
  /-- `ATTR_MEM_POOL_BUG_SZ_FREE_BAD3`. -/
  | bugSzFreeBad3
  /-- `ATTR_MEM_POOL_BUG_SZ_FREE_BAD4`. -/
  | bugSzFreeBad4
  /-- `ATTR_MEM_POOL_BUG_SZ_TOTAL_BAD`. -/
  | bugSzTotalBad
  /-- `ATTR_MEM_POOL_BUG_SZ_MAX_BAD`. -/
  | bugSzMaxBad
  deriving DecidableEq

/-! ### Objects -/

/-- `ObjPool<UcMem>`. -/
structure ObjPool where
  /-- `obj_freelist`. -/
  freelist : List UcMem := []
  /-- The next address that `new` gives. -/
  fresh : ℕ := 0

namespace ObjPool

/-- `New`: the first free object, or a new one. -/
def new (newOk : Bool) (o : ObjPool) : Option UcMem × ObjPool :=
  match o.freelist with
  | m :: rest => (some m, { o with freelist := rest })
  | [] => if newOk then (some ⟨o.fresh, false⟩, { o with fresh := o.fresh + 1 }) else (none, o)

/-- `Delete`. -/
def delete (m : UcMem) (o : ObjPool) : ObjPool := { o with freelist := m :: o.freelist }

/-- What `New` takes: the first free object, or a new one, which has no memory. -/
inductive Takes (o : ObjPool) : UcMem → ObjPool → Prop
  | first {m : UcMem} {rest : List UcMem} : o.freelist = m :: rest → Takes o m { o with freelist := rest }
  | made : o.freelist = [] → Takes o ⟨o.fresh, false⟩ { o with fresh := o.fresh + 1 }

theorem new_cases (newOk : Bool) (o : ObjPool) :
    (o.new newOk = (none, o) ∧ o.freelist = []) ∨ ∃ m o', o.new newOk = (some m, o') ∧ Takes o m o' := by
  unfold new
  split
  · next m rest h => exact .inr ⟨_, _, rfl, .first h⟩
  · next h =>
    cases newOk with
    | true => exact .inr ⟨_, _, rfl, .made h⟩
    | false => exact .inl ⟨rfl, h⟩

end ObjPool

/-! ### The pool -/

/-- `UcMemPool`. -/
structure UcMemPool where
  /-- `sz_each`. -/
  szEach : ℕ
  /-- `sz_total`. -/
  szTotal : ℕ := 0
  /-- `sz_free`. -/
  szFree : ℕ := 0
  /-- `sz_max`. -/
  szMax : ℕ
  /-- `pool`. -/
  pool : ObjPool := {}

/-- The outcome of `UcMemPool::Alloc`. -/
structure Alloc where
  /-- The pool. -/
  pool : UcMemPool
  /-- What is returned. -/
  block : Option UcMem
  /-- `exceed_limit`. -/
  exceedLimit : Bool := false
  /-- What is reported. -/
  reports : List Attr := []

/-- The outcome of `UcMemPool::Shrink`. -/
structure Shrunk where
  /-- The pool. -/
  pool : UcMemPool
  /-- What is returned. -/
  shk : ℕ
  /-- What is reported. -/
  reports : List Attr := []

namespace UcMemPool

/-- `Alloc`. -/
def alloc (newOk mallocOk : Bool) (p : UcMemPool) : Alloc :=
  match p.pool.new newOk with
  | (none, o) => { pool := { p with pool := o }, block := none, reports := [.newObjFail] }
  | (some m, o) =>
    if !m.mem then
      if p.szMax < p.szTotal + p.szEach then
        { pool := { p with pool := o.delete m }, block := none, exceedLimit := true, reports := [.newObj, .limitReached] }
      else if !mallocOk then
        { pool := { p with pool := o.delete m }, block := none, reports := [.newObj, .mallocFail] }
      else
        { pool := { p with pool := o, szTotal := p.szTotal + p.szEach }, block := some { m with mem := true },
          reports := [.newObj] }
    else if p.szFree < p.szEach then
      { pool := { p with pool := o, szTotal := p.szTotal + p.szEach }, block := some m, reports := [.bugSzFreeBad1] }
    else
      { pool := { p with pool := o, szFree := p.szFree - p.szEach, szTotal := p.szTotal + p.szEach }, block := some m }

/-- `Free`. -/
def free (m : UcMem) (p : UcMemPool) : UcMemPool × List Attr :=
  let p := { p with pool := p.pool.delete m, szFree := p.szFree + p.szEach }
  if p.szTotal < p.szEach then (p, [.bugSzTotalBad]) else ({ p with szTotal := p.szTotal - p.szEach }, [])

/-- `x & ~(sz_each - 1)`. -/
def alignDown (x szEach : ℕ) : ℕ := (UInt64.ofNat x &&& ~~~(UInt64.ofNat szEach - 1)).toNat

/-- The loop of `Shrink` that frees memory. -/
def shrinkLoop (newOk : Bool) (maxFree : ℕ) : ℕ → UcMemPool → ℕ → Shrunk
  | 0, p, shk => ⟨p, shk, []⟩
  | fuel + 1, p, shk =>
    if p.szFree ≤ maxFree then ⟨p, shk, []⟩
    else
      match p.pool.new newOk with
      | (none, o) => ⟨{ p with pool := o }, shk, [.bugSzFreeBad4]⟩
      | (some m, o) =>
        if !m.mem then ⟨{ p with pool := o.delete m }, shk, [.bugSzFreeBad2]⟩
        else
          -- free from free space
          let p := { p with pool := o.delete { m with mem := false } }
          if p.szFree < p.szEach then
            let r := shrinkLoop newOk maxFree fuel p (shk + p.szEach)
            { r with reports := .bugSzFreeBad3 :: r.reports }
          else shrinkLoop newOk maxFree fuel { p with szFree := p.szFree - p.szEach } (shk + p.szEach)

/-- `Shrink`. A turn of the loop that goes on takes its memory from an object that has some. -/
def shrink (newOk : Bool) (p : UcMemPool) : Shrunk :=
  let szAllocated := p.szTotal + p.szFree
  let shk := alignDown ((p.szMax - szAllocated) / 2) p.szEach
  if szAllocated * 2 < p.szMax ∧ p.szEach < shk then
    ⟨{ p with szMax := p.szMax - shk }, shk, [.shrinkSpace]⟩
  else
    let maxFree := min (p.szMax / 4) p.szTotal
    let r := shrinkLoop newOk maxFree (p.pool.freelist.countP (·.mem) + 1) p 0
    if r.pool.szMax < r.shk then { r with reports := r.reports ++ [.bugSzMaxBad] }
    else { r with pool := { r.pool with szMax := r.pool.szMax - r.shk } }

/-- The loop of `Shrink` ends: more turns change nothing. -/
theorem shrinkLoop_ends {newOk : Bool} {maxFree : ℕ} : ∀ {fuel : ℕ} {p : UcMemPool} {shk : ℕ},
    p.pool.freelist.countP (·.mem) < fuel →
    shrinkLoop newOk maxFree (fuel + 1) p shk = shrinkLoop newOk maxFree fuel p shk := by
  intro fuel
  induction fuel with
  | zero => exact fun h => absurd h (Nat.not_lt_zero _)
  | succ fuel ih =>
    intro p shk h
    rw [shrinkLoop, shrinkLoop]
    split
    · rfl
    obtain ⟨hnew, -⟩ | ⟨m, o, hnew, htake⟩ := ObjPool.new_cases newOk p.pool
    · simp only [hnew]
    · simp only [hnew]
      cases hm : m.mem with
      | false => rfl
      | true =>
        have hlt : (o.delete { m with mem := false }).freelist.countP (·.mem) < fuel := by
          cases htake with
          | first hl =>
            rw [hl, List.countP_cons_of_pos hm] at h
            simpa [ObjPool.delete] using h
          | made _ => exact absurd hm Bool.false_ne_true
        simp only [Bool.not_true, Bool.false_eq_true, if_false]
        split
        · rw [ih hlt]
        · exact ih hlt

/-! ### What a call does -/

/-- What `Alloc` does. -/
inductive Allocates (p : UcMemPool) : Alloc → Prop
  /-- There is no object. -/
  | noObject : Allocates p { pool := p, block := none, reports := [.newObjFail] }
  /-- An object without memory, for which there is no room. -/
  | noRoom {m : UcMem} {o : ObjPool} : ObjPool.Takes p.pool m o → m.mem = false → p.szMax < p.szTotal + p.szEach →
      Allocates p { pool := { p with pool := o.delete m }, block := none, exceedLimit := true,
                    reports := [.newObj, .limitReached] }
  /-- An object without memory, for which `malloc` fails. -/
  | noMemory {m : UcMem} {o : ObjPool} : ObjPool.Takes p.pool m o → m.mem = false → p.szTotal + p.szEach ≤ p.szMax →
      Allocates p { pool := { p with pool := o.delete m }, block := none, reports := [.newObj, .mallocFail] }
  /-- An object without memory, which gets some. -/
  | fresh {m : UcMem} {o : ObjPool} : ObjPool.Takes p.pool m o → m.mem = false → p.szTotal + p.szEach ≤ p.szMax →
      Allocates p { pool := { p with pool := o, szTotal := p.szTotal + p.szEach }, block := some { m with mem := true },
                    reports := [.newObj] }
  /-- An object with memory that `sz_free` has not counted. -/
  | bad {m : UcMem} {o : ObjPool} : ObjPool.Takes p.pool m o → m.mem = true → p.szFree < p.szEach →
      Allocates p { pool := { p with pool := o, szTotal := p.szTotal + p.szEach }, block := some m,
                    reports := [.bugSzFreeBad1] }
  /-- An object with memory. -/
  | old {m : UcMem} {o : ObjPool} : ObjPool.Takes p.pool m o → m.mem = true → p.szEach ≤ p.szFree →
      Allocates p { pool := { p with pool := o, szFree := p.szFree - p.szEach, szTotal := p.szTotal + p.szEach },
                    block := some m }

theorem alloc_cases (newOk mallocOk : Bool) (p : UcMemPool) : Allocates p (p.alloc newOk mallocOk) := by
  unfold alloc
  obtain ⟨hnew, -⟩ | ⟨m, o, hnew, htake⟩ := ObjPool.new_cases newOk p.pool
  · simp only [hnew]
    exact .noObject
  · simp only [hnew]
    cases hm : m.mem with
    | false =>
      simp only [Bool.not_false, if_true]
      split
      · next hroom => exact .noRoom htake hm hroom
      · next hroom =>
        have hroom := Nat.not_lt.mp hroom
        cases mallocOk with
        | true => exact .fresh htake hm hroom
        | false => exact .noMemory htake hm hroom
    | true =>
      simp only [Bool.not_true, Bool.false_eq_true, if_false]
      split
      · next hfree => exact .bad htake hm hfree
      · next hfree => exact .old htake hm (Nat.not_lt.mp hfree)

theorem alignDown_le (x szEach : ℕ) : alignDown x szEach ≤ x := by
  rw [alignDown, UInt64.toNat_and]
  exact Nat.le_trans Nat.and_le_left (UInt64.toNat_ofNat' ▸ Nat.mod_le _ _)

end UcMemPool

/-! ### Accounts -/

/-- The objects of the pool and those handed out have addresses of their own. -/
structure Apart (o : ObjPool) (out : List UcMem) : Prop where
  /-- No two have the same. -/
  nodup : ((o.freelist ++ out).map UcMem.addr).Nodup
  /-- The next address is new. -/
  fresh : ∀ m ∈ o.freelist ++ out, m.addr < o.fresh

/-- What is taken from the pool lies apart from what is handed out. -/
theorem Apart.take {o o' : ObjPool} {m : UcMem} {out : List UcMem} (h : Apart o out) (ht : ObjPool.Takes o m o') :
    Apart o' (m :: out) := by
  obtain ⟨hnd, hfresh⟩ := h
  cases ht with
  | @first m rest hl =>
    rw [hl] at hnd hfresh
    have hperm : (m :: rest ++ out).Perm (rest ++ m :: out) := List.perm_middle.symm
    exact ⟨(hperm.map _).nodup_iff.mp hnd, fun x hx => hfresh x (hperm.mem_iff.mpr hx)⟩
  | made hl =>
    rw [hl] at hnd hfresh
    refine ⟨?_, fun x hx => ?_⟩
    · rw [hl]
      refine List.nodup_cons.mpr ⟨fun hmem => ?_, hnd⟩
      obtain ⟨x, hx, heq⟩ := List.mem_map.mp hmem
      exact absurd heq (Nat.ne_of_lt (hfresh x hx))
    · rw [hl] at hx
      rcases List.mem_cons.mp hx with rfl | hx
      · exact Nat.lt_succ_self _
      · exact Nat.lt_succ_of_lt (hfresh x hx)

/-- A block may be given back in any state of its memory. -/
theorem Apart.delete {o : ObjPool} {m m' : UcMem} {out : List UcMem} (h : Apart o (m :: out)) (hm : m'.addr = m.addr) :
    Apart (o.delete m') out := by
  obtain ⟨hnd, hfresh⟩ := h
  have hperm : (o.freelist ++ m :: out).Perm (m :: o.freelist ++ out) := List.perm_middle
  have hmap : ((o.delete m').freelist ++ out).map UcMem.addr = (m :: o.freelist ++ out).map UcMem.addr := by
    simp [ObjPool.delete, hm]
  refine ⟨hmap ▸ (hperm.map _).nodup_iff.mp hnd, fun x hx => ?_⟩
  rcases List.mem_cons.mp hx with rfl | hx
  · exact hm ▸ hfresh m (hperm.mem_iff.mpr (List.mem_cons_self ..))
  · exact hfresh x (hperm.mem_iff.mpr (List.mem_cons_of_mem _ hx))

/-- What is handed out may get memory. -/
theorem Apart.hand {o : ObjPool} {m m' : UcMem} {out : List UcMem} (h : Apart o (m :: out)) (hm : m'.addr = m.addr) :
    Apart o (m' :: out) := by
  obtain ⟨hnd, hfresh⟩ := h
  have hmap : (o.freelist ++ m' :: out).map UcMem.addr = (o.freelist ++ m :: out).map UcMem.addr := by simp [hm]
  refine ⟨hmap ▸ hnd, fun x hx => ?_⟩
  rcases List.mem_append.mp hx with hx | hx
  · exact hfresh x (List.mem_append_left _ hx)
  rcases List.mem_cons.mp hx with rfl | hx
  · exact hm ▸ hfresh m (List.mem_append_right _ (List.mem_cons_self ..))
  · exact hfresh x (List.mem_append_right _ (List.mem_cons_of_mem _ hx))

theorem Apart.perm {o : ObjPool} {out out' : List UcMem} (h : Apart o out) (hp : out.Perm out') : Apart o out' := by
  have hperm := hp.append_left o.freelist
  exact ⟨(hperm.map _).nodup_iff.mp h.nodup, fun x hx => h.fresh x (hperm.mem_iff.mpr hx)⟩

/-- The number of free objects with memory. -/
def ObjPool.stock (o : ObjPool) : ℕ := o.freelist.countP (·.mem)

theorem ObjPool.stock_delete (o : ObjPool) (m : UcMem) : (o.delete m).stock = o.stock + if m.mem then 1 else 0 :=
  List.countP_cons ..

theorem ObjPool.Takes.stock {o o' : ObjPool} {m : UcMem} (h : ObjPool.Takes o m o') :
    o.stock = o'.stock + if m.mem then 1 else 0 := by
  cases h with
  | first hl => rw [ObjPool.stock, hl, List.countP_cons]; rfl
  | made _ => rfl

/-- What the counters of a pool say when the blocks of `out` are handed out. -/
structure Accounts (p : UcMemPool) (out : List UcMem) : Prop where
  /-- `sz_total` is the size of the blocks handed out. -/
  total : p.szTotal = p.szEach * out.length
  /-- `sz_free` is the size of the free objects with memory. -/
  free : p.szFree = p.szEach * p.pool.stock
  /-- A block that is handed out has memory. -/
  held : ∀ m ∈ out, m.mem = true
  /-- No object is there twice. -/
  apart : Apart p.pool out

/-- The reports that the counters are wrong. -/
def Attr.isMiscount : Attr → Bool
  | bugSzFreeBad1 | bugSzFreeBad3 | bugSzTotalBad => true
  | _ => false

namespace UcMemPool

variable {p : UcMemPool} {out : List UcMem}

/-- A free object with memory has been counted. -/
theorem le_szFree (h : Accounts p out) (hs : 0 < p.pool.stock) : p.szEach ≤ p.szFree := by
  rw [h.free]
  exact Nat.le_mul_of_pos_right _ hs

theorem stock_pos {o : ObjPool} {m : UcMem} (ht : ObjPool.Takes p.pool m o) (hm : m.mem = true) : 0 < p.pool.stock := by
  rw [ht.stock, hm]
  exact Nat.succ_pos _

/-- An object that is put back as it was taken. -/
theorem accounts_putBack (h : Accounts p out) {m : UcMem} {o : ObjPool} (ht : ObjPool.Takes p.pool m o) :
    Accounts { p with pool := o.delete m } out := by
  refine ⟨h.total, ?_, h.held, (h.apart.take ht).delete rfl⟩
  rw [ObjPool.stock_delete, ← ht.stock]
  exact h.free

/-- **`Alloc` keeps the accounts**, and what it hands out is not handed out yet. -/
theorem accounts_alloc (h : Accounts p out) (newOk mallocOk : Bool) :
    Accounts (p.alloc newOk mallocOk).pool ((p.alloc newOk mallocOk).block.toList ++ out) ∧
      ∀ a ∈ (p.alloc newOk mallocOk).reports, a.isMiscount = false := by
  have hcases := alloc_cases newOk mallocOk p
  generalize p.alloc newOk mallocOk = r at hcases
  cases hcases with
  | noObject => exact ⟨h, by simp [Attr.isMiscount]⟩
  | noRoom ht hm _ => exact ⟨accounts_putBack h ht, by simp [Attr.isMiscount]⟩
  | noMemory ht hm _ => exact ⟨accounts_putBack h ht, by simp [Attr.isMiscount]⟩
  | @fresh m o ht hm _ =>
    have hstock : p.pool.stock = o.stock := by rw [ht.stock, hm]; rfl
    refine ⟨⟨?_, hstock ▸ h.free, ?_, (h.apart.take ht).hand rfl⟩, by simp [Attr.isMiscount]⟩
    · simp only [Option.toList_some, List.singleton_append, List.length_cons, Nat.mul_succ, h.total]
    · exact List.forall_mem_cons.mpr ⟨rfl, h.held⟩
  | bad ht hm hfree => exact absurd hfree (Nat.not_lt.mpr (le_szFree h (stock_pos ht hm)))
  | @old m o ht hm _ =>
    have hstock : p.pool.stock = o.stock + 1 := by rw [ht.stock, hm]; rfl
    refine ⟨⟨?_, ?_, ?_, h.apart.take ht⟩, List.forall_mem_nil _⟩
    · simp only [Option.toList_some, List.singleton_append, List.length_cons, Nat.mul_succ, h.total]
    · show p.szFree - p.szEach = p.szEach * o.stock
      rw [h.free, hstock, Nat.mul_succ, Nat.add_sub_cancel]
    · exact List.forall_mem_cons.mpr ⟨hm, h.held⟩

/-- **`Free` keeps the accounts.** -/
theorem accounts_free (h : Accounts p out) {m : UcMem} (hm : m ∈ out) :
    Accounts (p.free m).1 (out.erase m) ∧ ∀ a ∈ (p.free m).2, a.isMiscount = false := by
  have hperm := List.perm_cons_erase hm
  have hlen : out.length = (out.erase m).length + 1 := hperm.length_eq
  have htotal : p.szTotal = p.szEach * (out.erase m).length + p.szEach := by rw [h.total, hlen, Nat.mul_succ]
  have hfree : p.free m = ({ p with
      pool := p.pool.delete m, szFree := p.szFree + p.szEach, szTotal := p.szTotal - p.szEach }, []) := by
    rw [free, if_neg (by simp only; omega)]
  rw [hfree]
  refine ⟨⟨?_, ?_, fun x hx => h.held x (List.mem_of_mem_erase hx), ?_⟩, List.forall_mem_nil _⟩
  · simp only [htotal, Nat.add_sub_cancel]
  · rw [ObjPool.stock_delete, h.held m hm, if_pos rfl, Nat.mul_succ, ← h.free]
  · exact (h.apart.perm hperm).delete rfl

/-- What the loop of `Shrink` leaves. -/
structure Freed (p : UcMemPool) (shk : ℕ) (out : List UcMem) (r : Shrunk) : Prop where
  accounts : Accounts r.pool out
  each : r.pool.szEach = p.szEach
  total : r.pool.szTotal = p.szTotal
  max : r.pool.szMax = p.szMax
  /-- What is freed is what is returned. -/
  balance : r.pool.szFree + r.shk = p.szFree + shk
  reports : ∀ a ∈ r.reports, a.isMiscount = false

theorem freed_shrinkLoop (newOk : Bool) (maxFree : ℕ) : ∀ (fuel : ℕ) {p : UcMemPool} (shk : ℕ), Accounts p out →
    Freed p shk out (shrinkLoop newOk maxFree fuel p shk) := by
  intro fuel
  induction fuel with
  | zero => exact fun shk h => ⟨h, rfl, rfl, rfl, rfl, List.forall_mem_nil _⟩
  | succ fuel ih =>
    intro p shk h
    rw [shrinkLoop]
    split
    · exact ⟨h, rfl, rfl, rfl, rfl, List.forall_mem_nil _⟩
    obtain ⟨hnew, -⟩ | ⟨m, o, hnew, ht⟩ := ObjPool.new_cases newOk p.pool
    · simp only [hnew]
      exact ⟨h, rfl, rfl, rfl, rfl, by simp [Attr.isMiscount]⟩
    simp only [hnew]
    cases hm : m.mem with
    | false =>
      exact ⟨accounts_putBack h ht, rfl, rfl, rfl, rfl, by simp [Attr.isMiscount]⟩
    | true =>
      have hle := le_szFree h (stock_pos ht hm)
      have hstock : p.pool.stock = o.stock + 1 := by rw [ht.stock, hm]; rfl
      simp only [Bool.not_true, Bool.false_eq_true, if_false, if_neg (Nat.not_lt.mpr hle)]
      -- the object is put back without its memory
      have h' : Accounts { p with pool := o.delete { m with mem := false }, szFree := p.szFree - p.szEach } out := by
        refine ⟨h.total, ?_, h.held, (h.apart.take ht).delete rfl⟩
        simp only [ObjPool.stock_delete, Bool.false_eq_true, if_false, Nat.add_zero]
        rw [h.free, hstock, Nat.mul_succ, Nat.add_sub_cancel]
      obtain ⟨hacc, heach, htotal, hmax, hbal, hrep⟩ := ih (shk + p.szEach) h'
      refine ⟨hacc, heach, htotal, hmax, ?_, hrep⟩
      simp only at hbal
      omega

/-- The limit is not part of the accounts. -/
theorem accounts_withMax (h : Accounts p out) (szMax : ℕ) : Accounts { p with szMax := szMax } out :=
  ⟨h.total, h.free, h.held, h.apart⟩

/-- What `Shrink` leaves. -/
structure Shrinks (p : UcMemPool) (out : List UcMem) (r : Shrunk) : Prop where
  accounts : Accounts r.pool out
  each : r.pool.szEach = p.szEach
  reports : ∀ a ∈ r.reports, a.isMiscount = false
  /-- A pool within its limit stays within it, and what is returned is what the limit goes down by. -/
  within : p.szTotal + p.szFree ≤ p.szMax →
    r.pool.szTotal + r.pool.szFree ≤ r.pool.szMax ∧ r.pool.szMax + r.shk = p.szMax

/-- **`Shrink` keeps the accounts and the limit.** -/
theorem shrinks_shrink (h : Accounts p out) (newOk : Bool) : Shrinks p out (p.shrink newOk) := by
  unfold shrink
  simp only
  split
  · next hcond =>
    have hle := alignDown_le ((p.szMax - (p.szTotal + p.szFree)) / 2) p.szEach
    refine ⟨accounts_withMax h _, rfl, by simp [Attr.isMiscount], fun _ => ?_⟩
    simp only
    omega
  · have hfreed := freed_shrinkLoop newOk (min (p.szMax / 4) p.szTotal) (p.pool.freelist.countP (·.mem) + 1) 0 h
    generalize shrinkLoop newOk (min (p.szMax / 4) p.szTotal) (p.pool.freelist.countP (·.mem) + 1) p 0 = r at hfreed
    obtain ⟨hacc, heach, htotal, hmax, hbal, hrep⟩ := hfreed
    split
    · next hbad =>
      refine ⟨hacc, heach, fun a ha => ?_, fun hw => by omega⟩
      rcases List.mem_append.mp ha with ha | ha
      · exact hrep a ha
      · rw [List.mem_singleton.mp ha]
        rfl
    · next hok =>
      refine ⟨accounts_withMax hacc _, heach, hrep, fun hw => ?_⟩
      simp only
      omega

end UcMemPool

/-! ### Uses -/

/-- A pool, and the blocks that it has handed out. -/
structure Use where
  /-- The pool. -/
  pool : UcMemPool
  /-- The blocks. -/
  out : List UcMem := []

/-- The calls of a pool. -/
inductive PoolCall where
  /-- `Alloc`, with what `new` and `malloc` do. -/
  | alloc (newOk mallocOk : Bool)
  /-- `Free`. -/
  | free (m : UcMem)
  /-- `Shrink`. -/
  | shrink (newOk : Bool)

/-- A call, and what it reports. Only a block that is handed out may be freed. -/
def PoolCall.run : PoolCall → Use → Option (Use × List Attr)
  | alloc newOk mallocOk, u =>
    let r := u.pool.alloc newOk mallocOk
    some (⟨r.pool, r.block.toList ++ u.out⟩, r.reports)
  | free m, u =>
    if m ∈ u.out then
      let (p, reports) := u.pool.free m
      some (⟨p, u.out.erase m⟩, reports)
    else none
  | shrink newOk, u =>
    let r := u.pool.shrink newOk
    some (⟨r.pool, u.out⟩, r.reports)

/-- One call after the other. -/
def PoolStep (u u' : Use) : Prop := ∃ call reports, PoolCall.run call u = some (u', reports)

/-- A new pool, as `GetPool` makes it. -/
def Use.start (szEach szMax : ℕ) : Use := ⟨{ szEach := szEach, szMax := szMax }, []⟩

/-- A call keeps the accounts, and reports no miscount. -/
theorem accounts_run {u u' : Use} {call : PoolCall} {reports : List Attr} (h : Accounts u.pool u.out)
    (hrun : call.run u = some (u', reports)) : Accounts u'.pool u'.out ∧ ∀ a ∈ reports, a.isMiscount = false := by
  cases call with
  | alloc newOk mallocOk =>
    cases hrun
    exact UcMemPool.accounts_alloc h newOk mallocOk
  | free m =>
    rw [PoolCall.run] at hrun
    split at hrun
    · next hm =>
      cases hrun
      exact UcMemPool.accounts_free h hm
    · cases hrun
  | shrink newOk =>
    cases hrun
    have hs := UcMemPool.shrinks_shrink h newOk
    exact ⟨hs.accounts, hs.reports⟩

theorem accounts_start (szEach szMax : ℕ) : Accounts (Use.start szEach szMax).pool (Use.start szEach szMax).out :=
  ⟨rfl, rfl, fun _ hm => absurd hm List.not_mem_nil, ⟨List.nodup_nil, fun _ hm => absurd hm List.not_mem_nil⟩⟩

/-- **In every state of every use** of a pool, `sz_total` and `sz_free` are the sizes of the blocks that are handed out
and of the free objects with memory; no call reports that they are wrong; and what `Alloc` hands out is not handed out
already. -/
theorem accounts_of_uses {szEach szMax : ℕ} {u : Use} (h : Relation.ReflTransGen PoolStep (.start szEach szMax) u) :
    u.pool.szTotal = u.pool.szEach * u.out.length ∧
      u.pool.szFree = u.pool.szEach * (u.pool.pool.freelist.filter (·.mem)).length ∧
      (∀ call u' reports, PoolCall.run call u = some (u', reports) →
        .bugSzFreeBad1 ∉ reports ∧ .bugSzFreeBad3 ∉ reports ∧ .bugSzTotalBad ∉ reports) ∧
      ∀ newOk mallocOk m, (u.pool.alloc newOk mallocOk).block = some m → ∀ x ∈ u.out, x.addr ≠ m.addr := by
  have hacc : Accounts u.pool u.out := by
    induction h with
    | refl => exact accounts_start szEach szMax
    | tail _ hstep ih =>
      obtain ⟨call, reports, hrun⟩ := hstep
      exact (accounts_run ih hrun).1
  refine ⟨hacc.total, ?_, fun call u' reports hrun => ?_, fun newOk mallocOk m hm x hx heq => ?_⟩
  · rw [hacc.free, ObjPool.stock, List.countP_eq_length_filter]
  · have hrep := (accounts_run hacc hrun).2
    exact ⟨fun hmem => Bool.noConfusion (hrep _ hmem), fun hmem => Bool.noConfusion (hrep _ hmem),
      fun hmem => Bool.noConfusion (hrep _ hmem)⟩
  · have hnd := (UcMemPool.accounts_alloc hacc newOk mallocOk).1.apart.nodup
    rw [hm, List.map_append] at hnd
    have hout := (List.nodup_append.mp hnd).2.1
    exact (List.nodup_cons.mp hout).1 (heq ▸ List.mem_map.mpr ⟨x, hx, rfl⟩)

/-- Two blocks are handed out, one comes back and loses its memory to another pool. -/
theorem accounts_of_uses_shrunk : (∃ u, Relation.ReflTransGen PoolStep (.start 64 128) u ∧
    u.out = [⟨0, true⟩] ∧ u.pool.pool.freelist = [⟨1, false⟩] ∧ u.pool.szTotal = u.pool.szEach * u.out.length) := by
  have h1 : Relation.ReflTransGen PoolStep (.start 64 128) ⟨⟨64, 64, 0, 128, ⟨[], 1⟩⟩, [⟨0, true⟩]⟩ :=
    .single ⟨.alloc true true, _, rfl⟩
  have h2 : Relation.ReflTransGen PoolStep (.start 64 128) ⟨⟨64, 128, 0, 128, ⟨[], 2⟩⟩, [⟨1, true⟩, ⟨0, true⟩]⟩ :=
    h1.tail ⟨.alloc true true, _, rfl⟩
  have h3 : Relation.ReflTransGen PoolStep (.start 64 128) ⟨⟨64, 64, 64, 128, ⟨[⟨1, true⟩], 2⟩⟩, [⟨0, true⟩]⟩ :=
    h2.tail ⟨.free ⟨1, true⟩, _, rfl⟩
  have h4 : Relation.ReflTransGen PoolStep (.start 64 128) ⟨⟨64, 64, 0, 64, ⟨[⟨1, false⟩], 2⟩⟩, [⟨0, true⟩]⟩ :=
    h3.tail ⟨.shrink true, _, rfl⟩
  exact ⟨_, h4, rfl, rfl, (accounts_of_uses h4).1⟩

end KnvProto.Memory
