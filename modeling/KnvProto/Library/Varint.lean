import Mathlib.Algebra.GroupWithZero.Nat
import Mathlib.Algebra.Ring.Int.Defs
import Mathlib.Data.List.Basic

/-!
# Base-128 numerals

A natural number written with seven bits a byte, lowest first, every byte but
the last with its high bit set, and a natural number written with a fixed count
of bytes, lowest first. Nothing here is about the program: it is the arithmetic
of the two number formats of a wire codec.
-/

namespace KnvProto.Varint

/-! ### Numerals of seven bits a byte -/

/-- The shortest base-128 numeral of `n`. -/
def encode (n : ℕ) : List UInt8 :=
  if n < 128 then [UInt8.ofNat n] else UInt8.ofNat (n % 128 + 128) :: encode (n / 128)

theorem encode_of_lt {n : ℕ} (h : n < 128) : encode n = [UInt8.ofNat n] := by
  rw [encode, if_pos h]

theorem encode_of_ge {n : ℕ} (h : 128 ≤ n) :
    encode n = UInt8.ofNat (n % 128 + 128) :: encode (n / 128) := by
  rw [encode, if_neg (Nat.not_lt.mpr h)]

theorem encode_ne_nil (n : ℕ) : encode n ≠ [] := by
  rw [encode]
  split <;> simp

theorem length_encode_pos (n : ℕ) : 0 < (encode n).length :=
  List.length_pos_iff.mpr (encode_ne_nil n)

theorem lt_pow_length (n : ℕ) : n < 128 ^ (encode n).length := by
  induction n using encode.induct with
  | case1 n h =>
    rw [encode_of_lt h]
    simpa using h
  | case2 n h ih =>
    rw [encode_of_ge (Nat.not_lt.mp h), List.length_cons, Nat.pow_succ]
    omega

theorem length_encode_le {n k : ℕ} (hk : 0 < k) (h : n < 128 ^ k) : (encode n).length ≤ k := by
  induction k generalizing n with
  | zero => exact absurd hk (Nat.lt_irrefl 0)
  | succ k ih =>
    by_cases hn : n < 128
    · rw [encode_of_lt hn]
      exact Nat.succ_le_succ (Nat.zero_le k)
    · rw [encode_of_ge (Nat.not_lt.mp hn), List.length_cons]
      rw [Nat.pow_succ] at h
      refine Nat.succ_le_succ (ih (Nat.pos_of_ne_zero fun h0 => ?_) (by omega))
      subst h0
      omega

/-- The numeral of a sum is no longer than both numerals. -/
theorem length_encode_add (a b : ℕ) : (encode (a + b)).length ≤ (encode a).length + (encode b).length := by
  have ha := length_encode_pos a
  refine length_encode_le (by omega) ?_
  have hpow : ∀ n, 0 < (encode n).length → 2 ≤ 128 ^ (encode n).length := fun n hn =>
    Nat.le_trans (by decide) (Nat.pow_le_pow_right (by decide) hn)
  calc a + b < 128 ^ (encode a).length + 128 ^ (encode b).length := Nat.add_lt_add (lt_pow_length a) (lt_pow_length b)
    _ ≤ 128 ^ (encode a).length * 128 ^ (encode b).length :=
      Nat.add_le_mul (hpow a ha) (hpow b (length_encode_pos b))
    _ = 128 ^ ((encode a).length + (encode b).length) := (Nat.pow_add ..).symm

theorem length_encode_mono {a b : ℕ} (h : a ≤ b) : (encode a).length ≤ (encode b).length :=
  length_encode_le (length_encode_pos b) (Nat.lt_of_le_of_lt h (lt_pow_length b))
theorem toNat_ofNat_of_lt {n : ℕ} (h : n < 256) : (UInt8.ofNat n).toNat = n := by
  simp [UInt8.toNat_ofNat', Nat.mod_eq_of_lt h]

/-- The low seven bits of a byte. -/
theorem toNat_and_127 (b : UInt8) : (b &&& 0x7F).toNat = b.toNat % 128 := by
  rw [UInt8.toNat_and]
  exact Nat.and_two_pow_sub_one_eq_mod b.toNat 7

/-- The high bit of a byte says whether the byte is at least 128. -/
theorem and_128_eq_zero_iff (b : UInt8) : b &&& 0x80 = 0 ↔ b.toNat < 128 := by
  have key : ∀ x : Fin 256, x.val &&& 128 = 0 ↔ x.val < 128 := by decide +kernel
  rw [← UInt8.toNat_inj, UInt8.toNat_and]
  exact key ⟨b.toNat, b.toNat_lt⟩

/-- Or-ing in bits above all bits of `a` adds them. -/
theorem or_shiftLeft_eq_add {a i : ℕ} (ha : a < 2 ^ i) (b : ℕ) : a ||| b * 2 ^ i = a + b * 2 ^ i := by
  have h := Nat.two_pow_add_eq_or_of_lt ha b
  rw [Nat.or_comm, Nat.mul_comm, ← h, Nat.add_comm]

/-- A numeral, not always the shortest: all bytes but the last have the high bit set. -/
inductive IsNumeral : List UInt8 → Prop
  /-- The last byte. -/
  | last {b : UInt8} : b.toNat < 128 → IsNumeral [b]
  /-- A byte before others. -/
  | more {b : UInt8} {bs : List UInt8} : 128 ≤ b.toNat → IsNumeral bs → IsNumeral (b :: bs)

/-- The number a numeral stands for. -/
def numeral : List UInt8 → ℕ
  | [] => 0
  | b :: bs => b.toNat % 128 + 128 * numeral bs

theorem IsNumeral.ne_nil {bs : List UInt8} (h : IsNumeral bs) : bs ≠ [] := by
  cases h <;> simp

/-! ### Numerals of a fixed count of bytes -/

/-- The `k` low bytes of `n`, lowest first. -/
def leBytes : ℕ → ℕ → List UInt8
  | 0, _ => []
  | k + 1, n => UInt8.ofNat n :: leBytes k (n / 256)

/-- The number whose bytes, lowest first, are given. -/
def ofLeBytes : List UInt8 → ℕ
  | [] => 0
  | b :: bs => b.toNat + 256 * ofLeBytes bs

@[simp] theorem length_leBytes (k n : ℕ) : (leBytes k n).length = k := by
  induction k generalizing n with
  | zero => rfl
  | succ k ih => simp [leBytes, ih]

theorem ofLeBytes_lt (bs : List UInt8) : ofLeBytes bs < 256 ^ bs.length := by
  induction bs with
  | nil => simp [ofLeBytes]
  | cons b bs ih =>
    have hb := b.toNat_lt
    simp only [ofLeBytes, List.length_cons, Nat.pow_succ]
    omega

theorem ofLeBytes_leBytes (k n : ℕ) : ofLeBytes (leBytes k n) = n % 256 ^ k := by
  induction k generalizing n with
  | zero => simp [leBytes, ofLeBytes, Nat.mod_one]
  | succ k ih =>
    have hmod : n % 256 ^ (k + 1) = n % 256 + 256 * (n / 256 % 256 ^ k) := by
      rw [Nat.pow_succ, Nat.mul_comm, Nat.mod_mul]
    simp [leBytes, ofLeBytes, ih, UInt8.toNat_ofNat', hmod]

end KnvProto.Varint
