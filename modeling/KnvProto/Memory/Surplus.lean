import KnvProto.Memory.Pool

/-!
# Free memory that is used again, and given back

`UcMemPool::Alloc` and the second phase of `UcMemPool::Shrink` both look at the first free
object only. `Shrink` puts the object whose memory it has freed in front of the others, so
it meets that object again in its next turn, and so does the next `Alloc`.

## The model

A pool is reached by calls of its own functions and by `UcMemManager::Alloc`, which raises
the limit of a pool that has asked for more.

`recycles_iff` says when `Alloc` uses free memory again, and `givesBack_iff` when the second
phase of `Shrink` gives back what is too much: when one block is enough.
-/

namespace KnvProto.Memory

/-- What happens to a pool. -/
inductive PoolMove : Use → Use → Prop
  /-- A call. -/
  | call {u u' : Use} : PoolStep u u' → PoolMove u u'
  /-- `pool->sz_max += shk`. -/
  | raise (u : Use) (shk : ℕ) : PoolMove u { u with pool := { u.pool with szMax := u.pool.szMax + shk } }

/-- A pool that is reached from a new one. -/
def Reached (szEach szMax : ℕ) (u : Use) : Prop := Relation.ReflTransGen PoolMove (.start szEach szMax) u

/-- A pool that is reached keeps its accounts. -/
theorem Reached.accounts {szEach szMax : ℕ} {u : Use} (h : Reached szEach szMax u) : Accounts u.pool u.out := by
  induction h with
  | refl => exact accounts_start szEach szMax
  | tail _ hmove ih =>
    cases hmove with
    | call hstep =>
      obtain ⟨call, reports, hrun⟩ := hstep
      exact (accounts_run ih hrun).1
    | raise shk => exact UcMemPool.accounts_withMax ih _

theorem reached_call {szEach szMax : ℕ} {u u' : Use} (h : Reached szEach szMax u) (call : PoolCall) {reports : List Attr}
    (hrun : call.run u = some (u', reports)) : Reached szEach szMax u' :=
  h.tail (.call ⟨call, reports, hrun⟩)

namespace UcMemPool

variable {p : UcMemPool} {out : List UcMem}

/-- The first free object has memory. -/
def Ready (p : UcMemPool) : Prop := ∃ m rest, p.pool.freelist = m :: rest ∧ m.mem = true

/-! ### Allocation -/

/-- The object that `Alloc` calls `malloc` for. -/
def mallocFor (newOk : Bool) (p : UcMemPool) : Option UcMem :=
  match p.pool.new newOk with
  | (some m, _) => if !m.mem && p.szTotal + p.szEach ≤ p.szMax then some m else none
  | (none, _) => none

/-- `Alloc` uses free memory again. -/
structure Recycles (newOk mallocOk : Bool) (p : UcMemPool) : Prop where
  /-- It succeeds. -/
  block : (p.alloc newOk mallocOk).block.isSome = true
  /-- It does not call `malloc`. -/
  malloc : p.mallocFor newOk = none
  /-- It decreases `sz_free` by `sz_each`. -/
  free : (p.alloc newOk mallocOk).pool.szFree + p.szEach = p.szFree

theorem recycles_of_ready (h : Ready p) (hfree : p.szEach ≤ p.szFree) (newOk mallocOk : Bool) :
    Recycles newOk mallocOk p := by
  obtain ⟨m, rest, hl, hm⟩ := h
  have hnew : p.pool.new newOk = (some m, { p.pool with freelist := rest }) := by rw [ObjPool.new, hl]
  have halloc : p.alloc newOk mallocOk =
      { pool := { p with pool := { p.pool with freelist := rest }, szFree := p.szFree - p.szEach,
                         szTotal := p.szTotal + p.szEach }, block := some m } := by
    rw [alloc, hnew]
    simp only [hm, Bool.not_true, Bool.false_eq_true, if_false, if_neg (Nat.not_lt.mpr hfree)]
  refine ⟨by rw [halloc]; rfl, ?_, ?_⟩
  · rw [mallocFor, hnew]
    simp [hm]
  · rw [halloc]
    exact Nat.sub_add_cancel hfree

/-- An object without memory gets some, or is not handed out. -/
theorem ready_of_recycles {newOk mallocOk : Bool} (h : Recycles newOk mallocOk p) : Ready p := by
  obtain ⟨hblock, hmalloc, -⟩ := h
  unfold alloc at hblock
  unfold mallocFor at hmalloc
  obtain ⟨hnew, -⟩ | ⟨m, o, hnew, ht⟩ := ObjPool.new_cases newOk p.pool
  · simp [hnew] at hblock
  · rw [hnew] at hblock hmalloc
    cases hm : m.mem with
    | false =>
      by_cases hroom : p.szTotal + p.szEach ≤ p.szMax
      · simp [hm, hroom] at hmalloc
      · simp [hm, Nat.lt_of_not_le hroom] at hblock
    | true =>
      cases ht with
      | first hl => exact ⟨m, _, hl, hm⟩
      | made _ => cases hm

end UcMemPool

open UcMemPool

/-- **When free memory is used again**: in a pool that has free memory, exactly when the first free object has some. -/
theorem recycles_iff {szEach szMax : ℕ} {u : Use} (h : Reached szEach szMax u) (hfree : u.pool.szEach ≤ u.pool.szFree)
    (newOk mallocOk : Bool) :
    (Recycles newOk mallocOk u.pool ↔ Ready u.pool) ∧ (0 < u.pool.szEach → 0 < u.pool.pool.stock) := by
  refine ⟨⟨ready_of_recycles, fun hready => recycles_of_ready hready hfree newOk mallocOk⟩, fun hpos => ?_⟩
  rw [h.accounts.free] at hfree
  exact Nat.pos_of_mul_pos_left (Nat.lt_of_lt_of_le hpos hfree)

/-- A new pool with room for three blocks hands out two, and they come back. -/
def twoBack : Use := ⟨⟨64, 0, 128, 192, ⟨[⟨0, true⟩, ⟨1, true⟩], 2⟩⟩, []⟩

theorem reached_twoBack : Reached 64 192 twoBack := by
  have h0 : Reached 64 192 (.start 64 192) := .refl
  have h1 : Reached 64 192 ⟨⟨64, 64, 0, 192, ⟨[], 1⟩⟩, [⟨0, true⟩]⟩ := reached_call h0 (.alloc true true) rfl
  have h2 : Reached 64 192 ⟨⟨64, 128, 0, 192, ⟨[], 2⟩⟩, [⟨1, true⟩, ⟨0, true⟩]⟩ := reached_call h1 (.alloc true true) rfl
  have h3 : Reached 64 192 ⟨⟨64, 64, 64, 192, ⟨[⟨1, true⟩], 2⟩⟩, [⟨0, true⟩]⟩ := reached_call h2 (.free ⟨1, true⟩) rfl
  exact reached_call h3 (.free ⟨0, true⟩) rfl

theorem recycles_iff_twoBack : (Recycles false false twoBack.pool ↔ Ready twoBack.pool) ∧
    (0 < twoBack.pool.szEach → 0 < twoBack.pool.pool.stock) :=
  recycles_iff reached_twoBack (by decide) false false

/-- After `Shrink` has taken the memory of the first free object, `Alloc` calls `malloc` beside free memory. -/
theorem not_recycles : ¬∀ (u : Use), Reached 64 192 u → u.pool.szEach ≤ u.pool.szFree →
    ∀ newOk mallocOk, Recycles newOk mallocOk u.pool := by
  intro h
  have hshrunk : Reached 64 192 ⟨⟨64, 0, 64, 128, ⟨[⟨0, false⟩, ⟨1, true⟩], 2⟩⟩, []⟩ :=
    reached_call reached_twoBack (.shrink true) rfl
  have hmalloc := (h _ hshrunk (by decide) true true).malloc
  revert hmalloc
  decide

/-! ### Giving back -/

namespace UcMemPool

/-- `Shrink` finds no unallocated space that is worth returning. -/
def SecondPhase (p : UcMemPool) : Prop :=
  ¬((p.szTotal + p.szFree) * 2 < p.szMax ∧ p.szEach < alignDown ((p.szMax - (p.szTotal + p.szFree)) / 2) p.szEach)

/-- What `Shrink` lets a pool keep, `max_free`. -/
def maxFree (p : UcMemPool) : ℕ := min (p.szMax / 4) p.szTotal

/-- `Shrink` gives back all surplus free memory. -/
structure GivesBack (p : UcMemPool) (r : Shrunk) : Prop where
  /-- What is left is not too much, by the limit before and what is handed out. -/
  free : r.pool.szFree ≤ min (p.szMax / 4) r.pool.szTotal
  /-- The value returned is the decrease of `sz_free`. -/
  returned : r.pool.szFree + r.shk = p.szFree
  /-- `sz_max` has decreased by it. -/
  max : r.pool.szMax + r.shk = p.szMax
  /-- There was a free element for `sz_free`. -/
  found : .bugSzFreeBad2 ∉ r.reports
  /-- `sz_max` was large enough. -/
  limit : .bugSzMaxBad ∉ r.reports

/-- There is no surplus, or the memory of the first free object is all of it and counts in the limit. -/
def OneEnough (p : UcMemPool) : Prop :=
  p.szFree ≤ p.maxFree ∨ Ready p ∧ p.szFree ≤ p.maxFree + p.szEach ∧ p.szEach ≤ p.szMax

/-- The loop of `Shrink` at an object without memory. -/
theorem shrinkLoop_empty {m : UcMem} {rest : List UcMem} (newOk : Bool) {maxFree : ℕ} (fuel shk : ℕ)
    (hl : p.pool.freelist = m :: rest) (hm : m.mem = false) (hfree : maxFree < p.szFree) :
    shrinkLoop newOk maxFree (fuel + 1) p shk = ⟨p, shk, [.bugSzFreeBad2]⟩ := by
  have hnew : p.pool.new newOk = (some m, { p.pool with freelist := rest }) := by rw [ObjPool.new, hl]
  have hback : ({ p.pool with freelist := rest } : ObjPool).delete m = p.pool := by
    rw [ObjPool.delete, ← hl]
  rw [shrinkLoop, if_neg (Nat.not_le.mpr hfree), hnew]
  simp only [hm, Bool.not_false, if_true]
  rw [hback]

/-- The loop of `Shrink` at an object with memory ends after it: it comes back to the object that it has just put in
front, and stops there. -/
theorem shrinkLoop_ready {m : UcMem} {rest : List UcMem} (newOk : Bool) {maxFree : ℕ} (fuel : ℕ)
    (hl : p.pool.freelist = m :: rest) (hm : m.mem = true) (hfree : maxFree < p.szFree) (heach : p.szEach ≤ p.szFree) :
    shrinkLoop newOk maxFree (fuel + 2) p 0 =
      ⟨{ p with pool := { p.pool with freelist := { m with mem := false } :: rest }, szFree := p.szFree - p.szEach },
        p.szEach, if p.szFree - p.szEach ≤ maxFree then [] else [.bugSzFreeBad2]⟩ := by
  have hnew : p.pool.new newOk = (some m, { p.pool with freelist := rest }) := by rw [ObjPool.new, hl]
  rw [shrinkLoop, if_neg (Nat.not_le.mpr hfree), hnew]
  simp only [hm, Bool.not_true, Bool.false_eq_true, if_false, if_neg (Nat.not_lt.mpr heach), Nat.zero_add, ObjPool.delete]
  by_cases hdone : p.szFree - p.szEach ≤ maxFree
  · rw [shrinkLoop, if_pos hdone, if_pos hdone]
  · rw [if_neg hdone]
    exact shrinkLoop_empty newOk fuel _ rfl rfl (Nat.not_le.mp hdone)

/-- What the second phase of `Shrink` gives back. -/
theorem givesBack_shrink_iff (h : Accounts p out) (hphase : SecondPhase p) (newOk : Bool) :
    GivesBack p (p.shrink newOk) ↔ OneEnough p := by
  have hshrink : p.shrink newOk =
      let r := shrinkLoop newOk p.maxFree (p.pool.stock + 1) p 0
      if r.pool.szMax < r.shk then { r with reports := r.reports ++ [.bugSzMaxBad] }
      else { r with pool := { r.pool with szMax := r.pool.szMax - r.shk } } := by
    rw [shrink]
    exact if_neg hphase
  rw [hshrink]
  by_cases hsurplus : p.szFree ≤ p.maxFree
  · have hloop : shrinkLoop newOk p.maxFree (p.pool.stock + 1) p 0 = ⟨p, 0, []⟩ := by
      rw [shrinkLoop, if_pos hsurplus]
    rw [hloop]
    exact iff_of_true ⟨hsurplus, rfl, rfl, List.not_mem_nil, List.not_mem_nil⟩ (.inl hsurplus)
  have hlt := Nat.not_le.mp hsurplus
  have hstock : 0 < p.pool.stock := by
    rw [h.free] at hlt
    exact Nat.pos_of_ne_zero fun hzero => by simp [hzero] at hlt
  have heach := le_szFree h hstock
  obtain ⟨k, hk⟩ : ∃ k, p.pool.stock = k + 1 := ⟨p.pool.stock - 1, by omega⟩
  cases hl : p.pool.freelist with
  | nil =>
    rw [ObjPool.stock, hl] at hstock
    exact absurd hstock (Nat.lt_irrefl 0)
  | cons m rest =>
    cases hm : m.mem with
    | false =>
      have hnot : ¬OneEnough p := by
        rintro (hle | ⟨⟨m', rest', hl', hm'⟩, -⟩)
        · exact hsurplus hle
        · cases hl.symm.trans hl'
          rw [hm] at hm'
          cases hm'
      rw [shrinkLoop_empty newOk _ 0 hl hm hlt]
      exact iff_of_false (fun hgives => hgives.found (by simp)) hnot
    | true =>
      have hready : Ready p := ⟨m, rest, hl, hm⟩
      rw [hk, shrinkLoop_ready newOk k hl hm hlt heach]
      simp only
      constructor
      · intro hgives
        have hfound := hgives.found
        have hlimit := hgives.limit
        refine .inr ⟨hready, ?_, ?_⟩
        · by_contra hmore
          rw [if_neg (show ¬p.szFree - p.szEach ≤ p.maxFree by omega)] at hfound
          refine hfound ?_
          split <;> simp
        · by_contra hbad
          rw [if_pos (Nat.not_le.mp hbad)] at hlimit
          exact hlimit (List.mem_append_right _ (List.mem_singleton_self _))
      · rintro (hle | ⟨-, hone, hmax⟩)
        · exact absurd hle hsurplus
        · rw [if_neg (Nat.not_lt.mpr hmax), if_pos (show p.szFree - p.szEach ≤ p.maxFree by omega)]
          exact ⟨show p.szFree - p.szEach ≤ p.maxFree by omega, Nat.sub_add_cancel heach, Nat.sub_add_cancel hmax,
            List.not_mem_nil, List.not_mem_nil⟩

end UcMemPool

/-- **What the second phase of `Shrink` gives back**: all surplus, exactly when the memory of one block is enough. -/
theorem givesBack_iff {szEach szMax : ℕ} {u : Use} (h : Reached szEach szMax u) (hphase : SecondPhase u.pool)
    (newOk : Bool) : GivesBack u.pool (u.pool.shrink newOk) ↔ OneEnough u.pool :=
  givesBack_shrink_iff h.accounts hphase newOk

theorem secondPhase_twoBack : SecondPhase twoBack.pool := by
  rintro ⟨hspace, -⟩
  exact absurd hspace (by decide)

theorem givesBack_iff_twoBack : GivesBack twoBack.pool (twoBack.pool.shrink true) ↔ OneEnough twoBack.pool :=
  givesBack_iff reached_twoBack secondPhase_twoBack true

/-- Of two free blocks that are too much, one stays. -/
theorem not_givesBack : ¬∀ (u : Use), Reached 64 192 u → SecondPhase u.pool →
    ∀ newOk, GivesBack u.pool (u.pool.shrink newOk) := by
  intro h
  have hfree := (h twoBack reached_twoBack secondPhase_twoBack true).free
  revert hfree
  decide

end KnvProto.Memory
