import Mathlib.Algebra.GroupWithZero.Nat
import Mathlib.Algebra.Ring.Int.Defs
import Mathlib.Data.List.Basic

/-!
# The size classes of the memory pool

`mem_pool.cc` serves a request from one of ten pools, each of blocks of one size,
chosen by the hand-written search of `get_magic`; a request above the largest
class is served by `malloc`, and its block belongs to no pool. The tree asks a
block for its capacity with `GetAllocSize()`, which is the size of its pool's
blocks, and `0` for a block that belongs to no pool.

Proved here: the search ends, and finds the smallest class that is large enough.
-/

namespace KnvProto.Memory

/-- The sizes in `magics`. -/
def magics : List ℕ := [64, 256, 1024, 4096, 16384, 65536, 262144, 1048576, 4194304, 16777216]

/-- `biggest_magic`. -/
def biggestMagic : ℕ := 16777216

/-- `magics[mid].sz`. -/
def magicSz (mid : ℕ) : ℕ := magics.getD mid 0

/-- The search loop of `get_magic`. -/
def getMagicLoop (i : ℕ) : ℕ → ℕ → ℕ → ℕ
  | 0, low, _ => low
  | fuel + 1, low, high =>
    if low < high then
      let mid := (low + high) / 2
      if i = magicSz mid then mid
      else if i > magicSz mid then
        if low < mid then getMagicLoop i fuel mid high else getMagicLoop i fuel (low + 1) high
      else
        if high > mid then getMagicLoop i fuel low mid else getMagicLoop i fuel low (high - 1)
    else low

/-- `get_magic`: `none` is the return value `-1`. -/
def getMagic (i : ℕ) : Option ℕ :=
  if i ≤ biggestMagic then some (getMagicLoop i 10 0 9) else none

/-- `UcMemManager::Alloc(sz)->GetAllocSize()`. -/
def allocSize (sz : ℕ) : ℕ :=
  match getMagic sz with
  | some magic => magicSz magic
  | none => 0

theorem magicSz_lt {j k : ℕ} (hk : k ≤ 9) (h : j < k) : magicSz j < magicSz k := by
  have key : ∀ k : Fin 10, ∀ j : Fin 10, j < k → magicSz j < magicSz k := by decide
  exact key ⟨k, by omega⟩ ⟨j, by omega⟩ h

/-- The search keeps the answer between `low` and `high`, which draw together. -/
theorem getMagicLoop_spec (i : ℕ) : ∀ (fuel low high : ℕ), low ≤ high → high ≤ 9 → high - low ≤ fuel →
    i ≤ magicSz high → (∀ k < low, magicSz k < i) →
    getMagicLoop i fuel low high ≤ 9 ∧ i ≤ magicSz (getMagicLoop i fuel low high) ∧
      ∀ k < getMagicLoop i fuel low high, magicSz k < i := by
  intro fuel
  induction fuel with
  | zero =>
    intro low high hle h9 hfuel hi hlow
    obtain rfl : low = high := by omega
    exact ⟨h9, hi, hlow⟩
  | succ fuel ih =>
    intro low high hle h9 hfuel hi hlow
    rw [getMagicLoop]
    split
    · next hlt =>
      simp only
      split
      · next heq => exact ⟨by omega, Nat.le_of_eq heq, fun k hk => heq ▸ magicSz_lt (by omega) hk⟩
      · split
        · next hgt =>
          -- every class up to `mid` is too small
          have hsmall : ∀ k ≤ (low + high) / 2, magicSz k < i := by
            intro k hk
            rcases Nat.lt_or_eq_of_le hk with hk | rfl
            · exact Nat.lt_trans (magicSz_lt (by omega) hk) hgt
            · exact hgt
          split
          · exact ih _ _ (by omega) h9 (by omega) hi fun k hk => hsmall k (Nat.le_of_lt hk)
          · exact ih _ _ (by omega) h9 (by omega) hi fun k hk => hsmall k (by omega)
        · next hne hgt =>
          -- the class at `mid` is large enough
          have hlarge : i ≤ magicSz ((low + high) / 2) := Nat.le_of_not_lt hgt
          rw [if_pos (by omega)]
          exact ih _ _ (by omega) (by omega) (by omega) hlarge hlow
    · next hge =>
      obtain rfl : low = high := by omega
      exact ⟨h9, hi, hlow⟩

/-- **`get_magic` finds the smallest class that is large enough.** -/
theorem getMagic_spec {i : ℕ} (h : i ≤ biggestMagic) :
    ∃ m, getMagic i = some m ∧ m ≤ 9 ∧ i ≤ magicSz m ∧ ∀ k < m, magicSz k < i := by
  obtain ⟨h9, hi, hlow⟩ := getMagicLoop_spec i 10 0 9 (by decide) (by decide) (by decide) h (by simp)
  exact ⟨_, by rw [getMagic, if_pos h], h9, hi, hlow⟩

/-- A block from a pool has the room that was asked for. -/
theorem le_allocSize {sz : ℕ} (h : sz ≤ biggestMagic) : sz ≤ allocSize sz := by
  obtain ⟨m, hm, -, hle, -⟩ := getMagic_spec h
  rw [allocSize, hm]
  exact hle

end KnvProto.Memory
