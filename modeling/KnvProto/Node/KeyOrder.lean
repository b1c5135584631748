import Mathlib.Data.Set.Insert
import KnvProto.Node.Key

/-!
# The order of keys

`knv_key_t::operator<`, `operator==` and `operator!=`, which compare the types, the lengths and
the bytes of two keys.

## The model

A key is its type and its bytes; what lies behind them in memory is not known. `memcmp` is given
the length of the left key and looks at that many bytes of both, so it has no result when the right
key has fewer.

`operator<` is a disjunction: a smaller type, or a smaller length, or smaller bytes. It is an order
on a set of keys only if the three never disagree: `ordersStrictly_iff`.
-/

namespace KnvProto

namespace KnvKey

/-- `memcmp(a, b, n)`, where no more than the bytes of `a` and `b` may be read. -/
def memcmp (a b : Bytes) (n : ℕ) : Option Ordering :=
  if n ≤ a.length ∧ n ≤ b.length then some (compare (a.take n) (b.take n)) else none

/-- `operator<`. It has no result when it reads beyond the bytes of `k`. -/
def operatorLt (a k : KnvKey) : Option Bool :=
  if a.type.code < k.type.code then some true
  else if a.bytes.length < k.bytes.length then some true
  else if a.bytes.length = 0 then some false
  else (memcmp a.bytes k.bytes a.bytes.length).map (· == .lt)

/-- `operator==`. -/
def operatorEq (a k : KnvKey) : Option Bool :=
  if a.type.code ≠ k.type.code then some false
  else if a.bytes.length ≠ k.bytes.length then some false
  else if a.bytes.length = 0 then some true
  else (memcmp a.bytes k.bytes a.bytes.length).map (· == .eq)

/-- `operator!=`. -/
def operatorNe (a k : KnvKey) : Option Bool := (operatorEq a k).map (!·)

/-- What a strict total order does on a set of keys, and that nothing beyond their bytes is read. -/
structure OrdersStrictly (S : Set KnvKey) : Prop where
  /-- No key is smaller than itself. -/
  irrefl : ∀ a ∈ S, operatorLt a a ≠ some true
  /-- What is smaller than a smaller key is smaller. -/
  trans : ∀ a ∈ S, ∀ b ∈ S, ∀ c ∈ S, operatorLt a b = some true → operatorLt b c = some true →
    operatorLt a c = some true
  /-- Of two keys at most one is smaller. -/
  asymm : ∀ a ∈ S, ∀ b ∈ S, ¬(operatorLt a b = some true ∧ operatorLt b a = some true)
  /-- Neither is smaller exactly if they are equal. -/
  total : ∀ a ∈ S, ∀ b ∈ S,
    (operatorLt a b ≠ some true ∧ operatorLt b a ≠ some true) ↔ operatorEq a b = some true
  /-- No comparison reads beyond the bytes of the shorter key. -/
  bounded : ∀ a ∈ S, ∀ b ∈ S, operatorLt a b ≠ none ∧ operatorEq a b ≠ none ∧ operatorNe a b ≠ none

/-! ### Two keys -/

theorem code_injective {t t' : PbType} (h : t.code = t'.code) : t = t' := by
  cases t <;> cases t' <;> first | rfl | exact absurd h (by decide)

/-- `memcmp` of all bytes of two strings of one length. -/
theorem memcmp_length {a b : Bytes} (h : a.length = b.length) : memcmp a b a.length = some (compare a b) := by
  rw [memcmp, if_pos ⟨le_rfl, h.le⟩, List.take_length, h, List.take_length]

/-- `memcmp` of a longer string with a shorter one reads too far. -/
theorem memcmp_longer {a b : Bytes} (h : b.length < a.length) : memcmp a b a.length = none :=
  if_neg fun hle => absurd hle.2 (Nat.not_le.mpr h)

/-- Equality of keys is what `operator==` says, and it stays inside. -/
theorem operatorEq_eq (a b : KnvKey) : operatorEq a b = some (decide (a = b)) := by
  unfold operatorEq
  split
  · next ht => simp only [decide_eq_false fun h : a = b => ht (congrArg (fun k => k.type.code) h)]
  next ht =>
  split
  · next hl => simp only [decide_eq_false fun h : a = b => hl (congrArg (fun k => k.bytes.length) h)]
  next hl =>
  have ht := code_injective (not_not.mp ht)
  have hl := not_not.mp hl
  have heq : a = b ↔ a.bytes = b.bytes := by
    obtain ⟨t, bs⟩ := a
    obtain ⟨t', bs'⟩ := b
    obtain rfl : t = t' := ht
    simp
  split
  · next h0 =>
    have hnil : a.bytes = b.bytes := by rw [List.length_eq_zero_iff.mp h0, List.length_eq_zero_iff.mp (hl.symm.trans h0)]
    rw [decide_eq_true (heq.mpr hnil)]
  · rw [memcmp_length hl, Option.map_some]
    refine congrArg some ?_
    rw [Bool.eq_iff_iff, beq_iff_eq, decide_eq_true_iff, heq]
    exact Std.LawfulEqCmp.compare_eq_iff_eq

/-- The keys that the three comparisons agree about: of one length, and the one of the smaller type without the greater
bytes. -/
structure Comparable (a b : KnvKey) : Prop where
  /-- They are of one length. -/
  length : a.bytes.length = b.bytes.length
  /-- `a` does not have the greater bytes if its type is smaller. -/
  le : a.type.code < b.type.code → compare a.bytes b.bytes ≠ .gt
  /-- `b` does not have the greater bytes if its type is smaller. -/
  ge : b.type.code < a.type.code → compare b.bytes a.bytes ≠ .gt

theorem Comparable.symm {a b : KnvKey} (h : Comparable a b) : Comparable b a := ⟨h.length.symm, h.ge, h.le⟩

/-- Of keys of one length, one is smaller if its type or its bytes are. -/
theorem operatorLt_length {a b : KnvKey} (h : a.bytes.length = b.bytes.length) :
    operatorLt a b = some (decide (a.type.code < b.type.code ∨ compare a.bytes b.bytes = .lt)) := by
  unfold operatorLt
  split
  · next ht => simp only [ht, true_or, decide_true]
  next ht =>
  rw [if_neg (Nat.not_lt.mpr h.ge)]
  split
  · next h0 =>
    have hnil : a.bytes = b.bytes := by rw [List.length_eq_zero_iff.mp h0, List.length_eq_zero_iff.mp (h.symm.trans h0)]
    simp only [ht, hnil, Std.ReflCmp.compare_self, false_or, reduceCtorEq, decide_false]
  · rw [memcmp_length h, Option.map_some]
    simp only [ht, false_or]
    exact congrArg some (beq_eq_decide _ _)

/-- A longer key is compared beyond the bytes of the shorter one, or found smaller for its type. -/
theorem operatorLt_longer {a b : KnvKey} (h : b.bytes.length < a.bytes.length) :
    operatorLt a b = if a.type.code < b.type.code then some true else none := by
  unfold operatorLt
  split
  · rfl
  · rw [if_neg (Nat.not_lt.mpr h.le), if_neg (Nat.ne_of_gt (Nat.zero_lt_of_lt h)), memcmp_longer h]
    rfl

/-- A shorter key is smaller. -/
theorem operatorLt_shorter {a b : KnvKey} (h : a.bytes.length < b.bytes.length) : operatorLt a b = some true := by
  rw [operatorLt, if_pos h, ite_self]

/-- Of comparable keys the smaller one is smaller in type or in bytes, and in neither greater. -/
theorem Comparable.lt_iff {a b : KnvKey} (h : Comparable a b) : operatorLt a b = some true ↔
    a.type.code ≤ b.type.code ∧ compare a.bytes b.bytes ≠ .gt ∧
      (a.type.code < b.type.code ∨ compare a.bytes b.bytes = .lt) := by
  rw [operatorLt_length h.length, Option.some.injEq, decide_eq_true_iff]
  constructor
  · rintro (ht | hb)
    · exact ⟨UInt32.le_of_lt ht, h.le ht, .inl ht⟩
    · refine ⟨UInt32.not_lt.mp fun ht => h.ge ht ?_, by rw [hb]; decide, .inr hb⟩
      exact Std.OrientedCmp.gt_iff_lt.mpr hb
  · exact fun hlt => hlt.2.2

/-- Two keys that are not comparable: the smaller one is not one, or bytes are read that are not there. -/
theorem comparable_of_laws {a b : KnvKey} (hasymm : ¬(operatorLt a b = some true ∧ operatorLt b a = some true))
    (hab : operatorLt a b ≠ none) (hba : operatorLt b a ≠ none) : Comparable a b := by
  -- Of two lengths the shorter key is smaller, and the longer one, too, unless it is read too far.
  have hlen : ∀ {x y : KnvKey}, ¬(operatorLt x y = some true ∧ operatorLt y x = some true) → operatorLt y x ≠ none →
      ¬x.bytes.length < y.bytes.length := by
    intro x y hxy hyx hlt
    rw [operatorLt_longer hlt] at hxy hyx
    rw [operatorLt_shorter hlt] at hxy
    split at hyx
    · next ht => exact hxy ⟨rfl, if_pos ht⟩
    · exact hyx rfl
  have hle := Nat.not_lt.mp (hlen hasymm hba)
  have hge := Nat.not_lt.mp (hlen (fun h => hasymm h.symm) hab)
  have heq : a.bytes.length = b.bytes.length := Nat.le_antisymm hge hle
  rw [operatorLt_length heq, operatorLt_length heq.symm] at hasymm
  simp only [Option.some.injEq, decide_eq_true_iff] at hasymm
  refine ⟨heq, fun ht hgt => hasymm ⟨.inl ht, .inr ?_⟩, fun ht hgt => hasymm ⟨.inr ?_, .inl ht⟩⟩
  · exact Std.OrientedCmp.gt_iff_lt.mp hgt
  · exact Std.OrientedCmp.gt_iff_lt.mp hgt

/-- What is smaller than a smaller key is smaller. -/
theorem Comparable.lt_trans {a b c : KnvKey} (hab : Comparable a b) (hbc : Comparable b c) (hac : Comparable a c)
    (h : operatorLt a b = some true) (h' : operatorLt b c = some true) : operatorLt a c = some true := by
  obtain ⟨ht, hbs, hlt⟩ := hab.lt_iff.mp h
  obtain ⟨ht', hbs', -⟩ := hbc.lt_iff.mp h'
  have hle : (compare b.bytes c.bytes).isLE := Ordering.ne_gt_iff_isLE.mp hbs'
  refine hac.lt_iff.mpr ⟨UInt32.le_trans ht ht', Ordering.ne_gt_iff_isLE.mpr ?_, ?_⟩
  · exact Std.TransCmp.isLE_trans (Ordering.ne_gt_iff_isLE.mp hbs) hle
  · rcases hlt with hlt | hlt
    · exact .inl (UInt32.lt_of_lt_of_le hlt ht')
    · exact .inr (Std.TransCmp.lt_of_lt_of_isLE hlt hle)

/-- Of two keys at most one is smaller. -/
theorem Comparable.lt_asymm {a b : KnvKey} (hc : Comparable a b) :
    ¬(operatorLt a b = some true ∧ operatorLt b a = some true) := by
  rintro ⟨h, h'⟩
  obtain ⟨-, -, hlt⟩ := hc.lt_iff.mp h
  obtain ⟨ht, hbs, -⟩ := hc.symm.lt_iff.mp h'
  rcases hlt with hlt | hlt
  · exact UInt32.not_lt.mpr ht hlt
  · exact hbs (Std.OrientedCmp.gt_iff_lt.mpr hlt)

/-- Keys of one length of which neither is smaller are equal. -/
theorem eq_of_not_lt {a b : KnvKey} (hl : a.bytes.length = b.bytes.length) (h : operatorLt a b ≠ some true)
    (h' : operatorLt b a ≠ some true) : a = b := by
  rw [operatorLt_length hl, ne_eq, Option.some.injEq, decide_eq_true_iff, not_or] at h
  rw [operatorLt_length hl.symm, ne_eq, Option.some.injEq, decide_eq_true_iff, not_or] at h'
  have ht : a.type = b.type := code_injective (UInt32.le_antisymm (UInt32.not_lt.mp h'.1) (UInt32.not_lt.mp h.1))
  have hb : a.bytes = b.bytes := by
    cases hcmp : compare a.bytes b.bytes with
    | lt => exact absurd hcmp h.2
    | eq => exact Std.LawfulEqCmp.compare_eq_iff_eq.mp hcmp
    | gt => exact absurd (Std.OrientedCmp.gt_iff_lt.mp hcmp) h'.2
  obtain ⟨t, bs⟩ := a
  exact congrArg₂ KnvKey.mk ht hb

/-- No key is smaller than itself. -/
theorem operatorLt_self (a : KnvKey) : operatorLt a a ≠ some true := by
  have hself : compare a.bytes a.bytes = .eq := Std.ReflCmp.compare_self
  rw [operatorLt_length rfl, hself, ne_eq, Option.some.injEq, decide_eq_true_iff]
  rintro (h | h)
  · exact UInt32.lt_irrefl _ h
  · cases h

/-! ### Sets of keys -/

/-- **`operator<` is a strict total order** on the keys of a set, and reads none of them beyond its bytes, exactly if
they are all of one length, and none has greater bytes than another one of greater type. -/
theorem ordersStrictly_iff (S : Set KnvKey) : OrdersStrictly S ↔
    ∀ a ∈ S, ∀ b ∈ S, a.bytes.length = b.bytes.length ∧
      (a.type.code < b.type.code → compare a.bytes b.bytes ≠ .gt) := by
  constructor
  · intro h a ha b hb
    have hc := comparable_of_laws (h.asymm a ha b hb) (h.bounded a ha b hb).1 (h.bounded b hb a ha).1
    exact ⟨hc.length, hc.le⟩
  · intro h
    have hc : ∀ a ∈ S, ∀ b ∈ S, Comparable a b := fun a ha b hb =>
      ⟨(h a ha b hb).1, (h a ha b hb).2, (h b hb a ha).2⟩
    refine ⟨fun a _ => operatorLt_self a, fun a ha b hb c hc' => (hc a ha b hb).lt_trans (hc b hb c hc') (hc a ha c hc'),
      fun a ha b hb => (hc a ha b hb).lt_asymm, fun a ha b hb => ?_, fun a ha b hb => ?_⟩
    · rw [operatorEq_eq, Option.some.injEq, decide_eq_true_iff]
      constructor
      · exact fun hlt => eq_of_not_lt (hc a ha b hb).length hlt.1 hlt.2
      · rintro rfl
        exact ⟨operatorLt_self a, operatorLt_self a⟩
    · rw [operatorLt_length (hc a ha b hb).length, operatorNe, operatorEq_eq]
      exact ⟨Option.some_ne_none _, Option.some_ne_none _, Option.some_ne_none _⟩

/-- The number 7 and the string "x": each is smaller than the other. -/
theorem not_ordersStrictly : ¬OrdersStrictly {init .varint (some { i64 := 7 }), init .string (some { str := [120] })} := by
  intro h
  refine h.asymm (init .varint (some { i64 := 7 })) (Set.mem_insert ..) (init .string (some { str := [120] }))
    (Set.mem_insert_of_mem _ rfl) ?_
  decide +kernel

end KnvKey

end KnvProto
