import KnvProto.Codec.RoundTrip

/-!
# Keys

`knv_key_t`: the value of the tag-1 field that, with its tag, identifies a node
among its siblings. The length is a 16-bit number, so a longer string keeps only
the low half of its length; a number is kept as its 8 (or 4) bytes, lowest first.
-/

namespace KnvProto

open Varint

/-- `knv_key_t`: `type`, and the `len` bytes at `val`. No bytes is no key. -/
structure KnvKey where
  /-- `type`. -/
  type : PbType := .string
  /-- The bytes. -/
  bytes : Bytes := []
  deriving DecidableEq

namespace KnvKey

/-- `knv_key_t::init`: a string key of `len` bytes keeps `(uint16_t)len` of them. -/
def init (ktype : PbType) (kval : Option PbVal) : KnvKey :=
  match kval with
  | some v =>
    match ktype with
    | .string => ⟨.string, v.str.take (v.str.length % 2 ^ 16)⟩
    | .fixed32 => ⟨.fixed32, leBytes 4 v.i32.toNat⟩
    | .varint | .fixed64 => ⟨ktype, leBytes 8 v.i64.toNat⟩
  | none => ⟨ktype, []⟩

/-- `knv_key_t::GetValue`. -/
def getValue (k : KnvKey) : PbVal :=
  match k.type with
  | .string => { str := k.bytes }
  | _ => { i64 := UInt64.ofNat (ofLeBytes (k.bytes.take 8)) }

/-- The key that the bytes of a node begin with: the first field, if its tag is 1. -/
def ofBytes (bs : Bytes) : KnvKey :=
  match pbBegin bs with
  | some (f, _) => if f.tag = 1 then init f.type (some f.val) else {}
  | none => {}

@[simp] theorem init_none (t : PbType) : init t none = ⟨t, []⟩ := rfl

/-- A key is shorter than 2^16 bytes. -/
theorem length_init_lt (t : PbType) (v : Option PbVal) : (init t v).bytes.length < 2 ^ 16 := by
  cases v with
  | none => simp
  | some v =>
    cases t
    case string =>
      simp only [init, List.length_take]
      have := Nat.mod_lt v.str.length (show 0 < 2 ^ 16 by decide)
      omega
    all_goals simp [init]

theorem type_init (t : PbType) (v : Option PbVal) : (init t v).type = t := by
  cases v <;> cases t <;> rfl

/-- A key that came from `init` is the key of its own value. -/
theorem init_getValue_init (t : PbType) (v : PbVal) :
    init t (some (init t (some v)).getValue) = init t (some v) := by
  cases t
  case string =>
    have hlt : v.str.length % 2 ^ 16 < 2 ^ 16 := Nat.mod_lt _ (by decide)
    have hle : v.str.length % 2 ^ 16 ≤ v.str.length := Nat.mod_le _ _
    simp only [init, getValue, List.length_take, Nat.min_eq_left hle, Nat.mod_eq_of_lt hlt, List.take_take,
      Nat.min_self]
  case fixed32 =>
    have hlt : v.i32.toNat < 2 ^ 32 := v.i32.toNat_lt
    have htake : (leBytes 4 v.i32.toNat).take 8 = leBytes 4 v.i32.toNat := List.take_of_length_le (by simp)
    have hmod : v.i32.toNat % 256 ^ 4 = v.i32.toNat := Nat.mod_eq_of_lt hlt
    have hback : (PbVal.i32 { i64 := UInt64.ofNat v.i32.toNat }).toNat = v.i32.toNat := by
      rw [PbVal.i32, UInt64.toNat_toUInt32, UInt64.toNat_ofNat']
      omega
    simp only [init, getValue, htake, ofLeBytes_leBytes, hmod, hback]
  all_goals
    have htake : (leBytes 8 v.i64.toNat).take 8 = leBytes 8 v.i64.toNat := List.take_of_length_le (by simp)
    have hmod : v.i64.toNat % 256 ^ 8 = v.i64.toNat := Nat.mod_eq_of_lt v.i64.toNat_lt
    simp only [init, getValue, htake, ofLeBytes_leBytes, hmod, UInt64.ofNat_toNat]

/-- The value of a key is the one it was made of, where the length of a string fits. -/
theorem getValue_init (t : PbType) (v : PbVal) (h : t = .string → v.str.length < 2 ^ 16) :
    (init t (some v)).getValue = v.norm t := by
  cases t
  case string =>
    simp only [init, getValue, Nat.mod_eq_of_lt (h rfl), List.take_length]
    rfl
  case fixed32 =>
    have htake : (leBytes 4 v.i32.toNat).take 8 = leBytes 4 v.i32.toNat := List.take_of_length_le (by simp)
    have hmod : v.i32.toNat % 256 ^ 4 = v.i32.toNat := Nat.mod_eq_of_lt v.i32.toNat_lt
    simp only [init, getValue, htake, ofLeBytes_leBytes, hmod, PbVal.norm, UInt64.ofNat_uInt32ToNat]
  all_goals
    have htake : (leBytes 8 v.i64.toNat).take 8 = leBytes 8 v.i64.toNat := List.take_of_length_le (by simp)
    have hmod : v.i64.toNat % 256 ^ 8 = v.i64.toNat := Nat.mod_eq_of_lt v.i64.toNat_lt
    simp only [init, getValue, htake, ofLeBytes_leBytes, hmod, UInt64.ofNat_toNat]
    rfl

/-- A key is empty only if it is made of a string that is empty, or too long. -/
theorem bytes_init_ne_nil (t : PbType) (v : PbVal) (h : t = .string → v.str ≠ [] ∧ v.str.length < 2 ^ 16) :
    (init t (some v)).bytes ≠ [] := by
  cases t
  case string =>
    obtain ⟨hne, hlt⟩ := h rfl
    simp only [init, Nat.mod_eq_of_lt hlt, List.take_length]
    exact hne
  all_goals
    refine List.ne_nil_of_length_pos ?_
    simp [init]

end KnvKey

end KnvProto
