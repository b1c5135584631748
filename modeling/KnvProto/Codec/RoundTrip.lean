import KnvProto.Codec.Pb

/-!
# Encoding and decoding a field

What the encoder writes, as one byte string (`PbField.encode`); that the
predictor of `pb.h` gives its length; and that the decoder reads a concatenation
of encoded fields back, field by field, with `eom` at the end.

The field numbers that survive are those below 2^29: the encoder computes
`field_number << 3` in 32 bits. A 32-bit field is read back with its low half
only, which is all of it that was written.
-/

namespace KnvProto

open Varint

/-! ### Varints -/

theorem toNat_shiftRight_7 (v : UInt64) : (v >>> 7).toNat = v.toNat / 128 := by
  rw [UInt64.toNat_shiftRight]
  simp [Nat.shiftRight_eq_div_pow]

/-- The byte the encoding loop stores. -/
theorem toNat_vintByte (v : UInt64) : ((v &&& 0x7F) ||| 0x80).toUInt8.toNat = v.toNat % 128 + 128 := by
  have hlow : v.toNat &&& 127 = v.toNat % 128 := Nat.and_two_pow_sub_one_eq_mod v.toNat 7
  have hlt : v.toNat % 128 < 128 := Nat.mod_lt _ (by decide)
  have hor : v.toNat % 128 ||| 128 = v.toNat % 128 + 128 := or_shiftLeft_eq_add (i := 7) hlt 1
  rw [UInt64.toNat_toUInt8, UInt64.toNat_or, UInt64.toNat_and]
  simp only [UInt64.reduceToNat, hlow, hor]
  omega

theorem eq_zero_iff_toNat {v : UInt64} : v = 0 ↔ v.toNat = 0 := by
  rw [← UInt64.toNat_inj]
  rfl

theorem pbVintLoop_ne_nil (room : ℕ) {v : UInt64} (hv : v ≠ 0) : pbVintLoop (room + 1) v ≠ [] := by
  simp [pbVintLoop, hv]

/-- The loop's buffer, with the top bit of its last byte unset, is the numeral. -/
theorem pbVintLoop_unset (room : ℕ) : ∀ v : UInt64, v ≠ 0 → v.toNat < 128 ^ room →
    (pbVintLoop room v).dropLast ++ [(pbVintLoop room v).getLastD 0 &&& 0x7F] = encode v.toNat := by
  induction room with
  | zero =>
    intro v hv hlt
    rw [Nat.pow_zero, Nat.lt_one_iff, ← eq_zero_iff_toNat] at hlt
    exact absurd hlt hv
  | succ room ih =>
    intro v hv hlt
    have hloop : pbVintLoop (room + 1) v = ((v &&& 0x7F) ||| 0x80).toUInt8 :: pbVintLoop room (v >>> 7) := by
      rw [pbVintLoop, if_neg hv]
    have hbyte : ((v &&& 0x7F) ||| 0x80).toUInt8 = UInt8.ofNat (v.toNat % 128 + 128) := by
      rw [← UInt8.toNat_inj, toNat_vintByte, toNat_ofNat_of_lt (by omega)]
    by_cases hz : v >>> 7 = 0
    · have hsmall : v.toNat < 128 := by
        rw [eq_zero_iff_toNat, toNat_shiftRight_7] at hz
        omega
      have hnil : pbVintLoop room (v >>> 7) = [] := by
        rw [hz]
        cases room <;> simp [pbVintLoop]
      have hlast : UInt8.ofNat (v.toNat % 128 + 128) &&& 0x7F = UInt8.ofNat v.toNat := by
        rw [← UInt8.toNat_inj, toNat_and_127, toNat_ofNat_of_lt (by omega), toNat_ofNat_of_lt (by omega)]
        omega
      rw [hloop, hnil, encode_of_lt hsmall, hbyte, List.getLastD_cons, List.getLastD_nil, hlast]
      rfl
    · have hbig : 128 ≤ v.toNat := by
        rw [eq_zero_iff_toNat, toNat_shiftRight_7] at hz
        omega
      have hrest := ih (v >>> 7) hz (by rw [toNat_shiftRight_7]; rw [Nat.pow_succ] at hlt; omega)
      obtain ⟨room, rfl⟩ : ∃ k, room = k + 1 := by
        cases room with
        | zero => omega
        | succ k => exact ⟨k, rfl⟩
      obtain ⟨b, bs, hb⟩ := List.exists_cons_of_ne_nil (pbVintLoop_ne_nil room hz)
      rw [hloop, encode_of_ge hbig, hbyte, ← toNat_shiftRight_7, ← hrest, hb]
      simp

theorem pbVint_eq (v : UInt64) : pbVint v = encode v.toNat := by
  unfold pbVint
  split
  · next h => subst h; rw [encode_of_lt (by decide)]; rfl
  · next h => exact pbVintLoop_unset 10 v h (by have := v.toNat_lt; omega)

theorem pbEvalVintLoop_eq (room : ℕ) : ∀ v : UInt64, v ≠ 0 → v.toNat < 128 ^ room →
    pbEvalVintLoop room v = (encode v.toNat).length := by
  induction room with
  | zero =>
    intro v hv hlt
    rw [Nat.pow_zero, Nat.lt_one_iff, ← eq_zero_iff_toNat] at hlt
    exact absurd hlt hv
  | succ room ih =>
    intro v hv hlt
    rw [pbEvalVintLoop, if_neg hv]
    by_cases hz : v >>> 7 = 0
    · have hsmall : v.toNat < 128 := by
        rw [eq_zero_iff_toNat, toNat_shiftRight_7] at hz
        omega
      rw [hz, encode_of_lt hsmall]
      cases room <;> simp [pbEvalVintLoop]
    · have hbig : 128 ≤ v.toNat := by
        rw [eq_zero_iff_toNat, toNat_shiftRight_7] at hz
        omega
      rw [ih (v >>> 7) hz (by rw [toNat_shiftRight_7]; rw [Nat.pow_succ] at hlt; omega), encode_of_ge hbig,
        toNat_shiftRight_7, List.length_cons]

/-- The predictor of a varint's length agrees with the encoder. -/
theorem pbEvalVintLength_eq (v : UInt64) : pbEvalVintLength v = (pbVint v).length := by
  rw [pbVint_eq]
  unfold pbEvalVintLength
  split
  · next h => subst h; rw [encode_of_lt (by decide)]; rfl
  · next h => exact pbEvalVintLoop_eq 10 v h (by have := v.toNat_lt; omega)

/-- A varint takes ten bytes at most. -/
theorem length_pbVint_le (v : UInt64) : (pbVint v).length ≤ 10 := by
  have hloop : ∀ room v, pbEvalVintLoop room v ≤ room := by
    intro room
    induction room with
    | zero => exact fun _ => Nat.le_refl _
    | succ room ih =>
      intro v
      rw [pbEvalVintLoop]
      split
      · exact Nat.zero_le _
      · exact Nat.succ_le_succ (ih _)
  rw [← pbEvalVintLength_eq, pbEvalVintLength]
  split
  · decide
  · exact hloop 10 v

theorem pbEvalVintLength_pos (v : UInt64) : 0 < pbEvalVintLength v := by
  rw [pbEvalVintLength_eq, pbVint_eq]
  exact length_encode_pos _

/-- What one turn of the decoding loop adds to the result. -/
theorem toNat_varintStep (byte : UInt8) {bitpos : ℕ} {result : UInt64} (hpos : bitpos < 64)
    (hres : result.toNat < 2 ^ bitpos) (hfit : byte.toNat % 128 * 2 ^ bitpos < 2 ^ 64) :
    (result ||| (byte &&& 0x7F).toUInt64 <<< UInt64.ofNat bitpos).toNat =
      result.toNat + byte.toNat % 128 * 2 ^ bitpos := by
  have hshift : (UInt64.ofNat bitpos).toNat % 64 = bitpos := by
    rw [UInt64.toNat_ofNat']
    omega
  rw [UInt64.toNat_or, UInt64.toNat_shiftLeft, UInt8.toNat_toUInt64, toNat_and_127, hshift, Nat.shiftLeft_eq,
    Nat.mod_eq_of_lt hfit, or_shiftLeft_eq_add hres]

/-- The decoding loop reads a numeral back, from any position that leaves room for it. -/
theorem pbDecodeVarintLoop_encode (rest : Bytes) : ∀ (n bitpos : ℕ) (result : UInt64), bitpos < 64 →
    result.toNat < 2 ^ bitpos → result.toNat + n * 2 ^ bitpos < 2 ^ 64 →
    pbDecodeVarintLoop bitpos result (encode n ++ rest) =
      .ok (UInt64.ofNat (result.toNat + n * 2 ^ bitpos), rest) := by
  intro n
  induction n using Nat.strongRecOn with
  | ind n ih =>
    intro bitpos result hpos hres hsum
    have hpow : 0 < 2 ^ bitpos := Nat.two_pow_pos bitpos
    by_cases hn : n < 128
    · -- the last byte
      have hbyte : (UInt8.ofNat n).toNat = n := toNat_ofNat_of_lt (by omega)
      have hmod : n % 128 = n := Nat.mod_eq_of_lt hn
      have hstep := toNat_varintStep (UInt8.ofNat n) hpos hres (by rw [hbyte, hmod]; omega)
      rw [hbyte, hmod] at hstep
      have hlast : UInt8.ofNat n &&& 0x80 = 0 := (and_128_eq_zero_iff _).mpr (by rw [hbyte]; exact hn)
      rw [encode_of_lt hn, List.singleton_append, pbDecodeVarintLoop, if_neg (by omega), if_neg (by simp [hlast])]
      rw [← hstep, UInt64.ofNat_toNat]
    · -- a byte with its high bit set
      have hn' : 128 ≤ n := Nat.le_of_not_lt hn
      have hbyte : (UInt8.ofNat (n % 128 + 128)).toNat = n % 128 + 128 := toNat_ofNat_of_lt (by omega)
      have hmod : (n % 128 + 128) % 128 = n % 128 := by omega
      have hsplit : n % 128 * 2 ^ bitpos + n / 128 * 2 ^ (bitpos + 7) = n * 2 ^ bitpos := by
        have h7 : 2 ^ (bitpos + 7) = 128 * 2 ^ bitpos := by rw [Nat.pow_add, Nat.mul_comm]
        rw [h7, ← Nat.mul_assoc, ← Nat.add_mul]
        congr 1
        omega
      have hstep := toNat_varintStep (UInt8.ofNat (n % 128 + 128)) hpos hres (by rw [hbyte, hmod]; omega)
      rw [hbyte, hmod] at hstep
      have hquot : 1 * 2 ^ (bitpos + 7) ≤ n / 128 * 2 ^ (bitpos + 7) := Nat.mul_le_mul_right _ (by omega)
      have hpos' : bitpos + 7 < 64 := by
        by_contra hge
        have : 2 ^ 64 ≤ 2 ^ (bitpos + 7) := Nat.pow_le_pow_right (by decide) (by omega)
        omega
      have hres' : result.toNat + n % 128 * 2 ^ bitpos < 2 ^ (bitpos + 7) := by
        have h7 : 2 ^ (bitpos + 7) = 128 * 2 ^ bitpos := by rw [Nat.pow_add, Nat.mul_comm]
        have hle : n % 128 * 2 ^ bitpos ≤ 127 * 2 ^ bitpos := Nat.mul_le_mul_right _ (by omega)
        omega
      have hmore : ¬ UInt8.ofNat (n % 128 + 128) &&& 0x80 = 0 := by
        rw [and_128_eq_zero_iff, hbyte]
        omega
      rw [encode_of_ge hn', List.cons_append, pbDecodeVarintLoop, if_neg (by omega), if_pos hmore,
        ih (n / 128) (by omega) (bitpos + 7) _ hpos' (by rw [hstep]; exact hres') (by rw [hstep]; omega), hstep]
      congr 3
      omega

/-- The decoder reads back the varint the encoder wrote. -/
theorem pbDecodeVarint_pbVint (v : UInt64) (rest : Bytes) :
    pbDecodeVarint (pbVint v ++ rest) = .ok (v, rest) := by
  have h := pbDecodeVarintLoop_encode rest v.toNat 0 0 (by decide) (by decide) (by simpa using v.toNat_lt)
  rw [pbVint_eq, pbDecodeVarint, h]
  simp

/-! ### Tags -/

/-- The field numbers the 32-bit shift of the encoder keeps apart. -/
def TagOk (tag : UInt32) : Prop := 0 < tag.toNat ∧ tag.toNat < 2 ^ 29

instance (tag : UInt32) : Decidable (TagOk tag) := inferInstanceAs (Decidable (_ ∧ _))

theorem toNat_code_lt (type : PbType) : type.code.toNat < 8 := by
  cases type <;> decide

theorem toNat_pbTagWord {type : PbType} {tag : UInt32} (hlt : tag.toNat < 2 ^ 29) :
    (pbTagWord type tag).toNat = type.code.toNat + tag.toNat * 8 := by
  have hcode := toNat_code_lt type
  have hor := or_shiftLeft_eq_add (i := 3) hcode tag.toNat
  rw [pbTagWord, UInt32.toNat_toUInt64, UInt32.toNat_or, UInt32.toNat_shiftLeft]
  simp only [UInt32.reduceToNat, Nat.reduceMod, Nat.shiftLeft_eq, Nat.reducePow]
  rw [Nat.mod_eq_of_lt (by omega)]
  exact hor

theorem pbTagWord_ne_zero {type : PbType} {tag : UInt32} (h : TagOk tag) : pbTagWord type tag ≠ 0 := by
  rw [Ne, eq_zero_iff_toNat, toNat_pbTagWord h.2]
  have := h.1
  omega

theorem tag_of_pbTagWord {type : PbType} {tag : UInt32} (hlt : tag.toNat < 2 ^ 29) :
    (pbTagWord type tag >>> 3).toUInt32 = tag := by
  have hcode := toNat_code_lt type
  rw [← UInt32.toNat_inj, UInt64.toNat_toUInt32, UInt64.toNat_shiftRight, toNat_pbTagWord hlt]
  simp only [UInt64.reduceToNat, Nat.reduceMod, Nat.shiftRight_eq_div_pow, Nat.reducePow]
  omega

theorem code_of_pbTagWord {type : PbType} {tag : UInt32} (hlt : tag.toNat < 2 ^ 29) :
    (pbTagWord type tag).toUInt32 &&& 7 = type.code := by
  have hcode := toNat_code_lt type
  have hmask : ∀ x : ℕ, x &&& 7 = x % 8 := fun x => Nat.and_two_pow_sub_one_eq_mod x 3
  rw [← UInt32.toNat_inj, UInt32.toNat_and, UInt64.toNat_toUInt32, toNat_pbTagWord hlt]
  simp only [UInt32.reduceToNat, hmask]
  omega

@[simp] theorem ofCode_code (type : PbType) : PbType.ofCode type.code = some type := by
  cases type <;> decide

/-! ### Fields -/

/-- The bytes after the tag. -/
def payload (type : PbType) (val : PbVal) : Bytes :=
  match type with
  | .varint => pbVint val.i64
  | .fixed64 => leBytes 8 val.i64.toNat
  | .string => pbVint (UInt64.ofNat val.str.length) ++ val.str
  | .fixed32 => leBytes 4 val.i32.toNat

/-- A field, encoded. -/
def PbField.encode (f : PbField) : Bytes := pbVint (pbTagWord f.type f.tag) ++ payload f.type f.val

/-- Fields, encoded one after the other. -/
def encodeAll (fs : List PbField) : Bytes := fs.flatMap PbField.encode

@[simp] theorem encodeAll_nil : encodeAll [] = [] := rfl

@[simp] theorem encodeAll_cons (f : PbField) (fs : List PbField) :
    encodeAll (f :: fs) = f.encode ++ encodeAll fs := rfl

@[simp] theorem encodeAll_append (fs gs : List PbField) :
    encodeAll (fs ++ gs) = encodeAll fs ++ encodeAll gs := List.flatMap_append

/-- The predictor of a field's length agrees with the encoder. -/
theorem pbEvalFieldLength_eq (tag : UInt32) (type : PbType) (val : PbVal) :
    pbEvalFieldLength tag type val = (PbField.encode ⟨tag, type, val⟩).length := by
  cases type <;>
    simp [pbEvalFieldLength, pbEvalLength, pbEvalTagLength, PbField.encode, payload, pbEvalVintLength_eq, Nat.add_assoc]

theorem pbEvalLength_pos (tag : UInt32) (type : PbType) (i64 : UInt64) (len : ℕ) :
    0 < pbEvalLength tag type i64 len := by
  have h := pbEvalVintLength_pos (pbTagWord type tag)
  cases type <;> simp only [pbEvalLength, pbEvalTagLength] <;> omega

theorem length_encode_pos' (f : PbField) : 0 < f.encode.length := by
  have h := pbEvalLength_pos f.tag f.type f.val.i64 f.val.str.length
  rwa [show pbEvalLength f.tag f.type f.val.i64 f.val.str.length = pbEvalFieldLength f.tag f.type f.val from rfl,
    pbEvalFieldLength_eq] at h

/-- Adding bytes succeeds exactly when there is room for them. -/
theorem pbAdd_of_le {b : PbBuff} {bs : Bytes} (h : bs.length ≤ b.left) :
    pbAdd b bs = .ok ⟨b.out ++ bs, b.left - bs.length⟩ := by
  rw [pbAdd, if_neg (by omega)]

theorem pbAdd_of_lt {b : PbBuff} {bs : Bytes} (h : b.left < bs.length) :
    ∃ e, pbAdd b bs = .error e := ⟨_, by rw [pbAdd, if_pos h]⟩

/-- `pb_add_field_val` adds the encoded field when there is room for all of it. -/
theorem pbAddFieldVal_of_le {b : PbBuff} {tag : UInt32} {type : PbType} {val : PbVal}
    (h : (PbField.encode ⟨tag, type, val⟩).length ≤ b.left) :
    pbAddFieldVal b tag type val =
      .ok ⟨b.out ++ PbField.encode ⟨tag, type, val⟩, b.left - (PbField.encode ⟨tag, type, val⟩).length⟩ := by
  simp only [PbField.encode, List.length_append] at h ⊢
  have htag : pbAddTag b type tag =
      .ok ⟨b.out ++ pbVint (pbTagWord type tag), b.left - (pbVint (pbTagWord type tag)).length⟩ :=
    pbAdd_of_le (by omega)
  unfold pbAddFieldVal
  rw [htag]
  cases type <;> simp only [payload, Except.mapError, bind, Except.bind, pbAddVint, List.length_append] at h ⊢
  case string =>
    rw [pbAdd_of_le (by simp only; omega)]
    simp only
    rw [pbAdd_of_le (by simp only; omega)]
    simp only [List.append_assoc, Except.ok.injEq, PbBuff.mk.injEq, true_and]
    omega
  all_goals
    rw [pbAdd_of_le (by simp only; omega)]
    simp only [List.append_assoc, Except.ok.injEq, PbBuff.mk.injEq, true_and]
    omega

/-- `pb_add_field_val` fails when there is no room for all of the field. -/
theorem pbAddFieldVal_of_lt {b : PbBuff} {tag : UInt32} {type : PbType} {val : PbVal}
    (h : b.left < (PbField.encode ⟨tag, type, val⟩).length) : ∃ e, pbAddFieldVal b tag type val = .error e := by
  simp only [PbField.encode, List.length_append] at h
  unfold pbAddFieldVal
  by_cases htag : (pbVint (pbTagWord type tag)).length ≤ b.left
  · rw [pbAddTag, pbAddVint, pbAdd_of_le htag]
    cases type <;> simp only [payload, Except.mapError, bind, Except.bind, pbAddVint, List.length_append] at h ⊢
    case string =>
      by_cases hlen : (pbVint (UInt64.ofNat val.str.length)).length ≤ b.left - (pbVint (pbTagWord .string tag)).length
      · rw [pbAdd_of_le hlen]
        exact pbAdd_of_lt (by simp only; omega)
      · obtain ⟨e, he⟩ := pbAdd_of_lt (b := ⟨b.out ++ pbVint (pbTagWord .string tag),
          b.left - (pbVint (pbTagWord .string tag)).length⟩) (Nat.lt_of_not_le hlen)
        exact ⟨_, by rw [he]⟩
    all_goals exact pbAdd_of_lt (by simp only; omega)
  · obtain ⟨e, he⟩ := pbAdd_of_lt (b := b) (Nat.lt_of_not_le htag)
    exact ⟨_, by rw [pbAddTag, pbAddVint, he]; rfl⟩

/-- The bytes before a string of length `size`. -/
def stringHead (tag : UInt32) (size : ℕ) : Bytes := pbVint (pbTagWord .string tag) ++ pbVint (UInt64.ofNat size)

theorem encode_string (tag : UInt32) (val : PbVal) :
    PbField.encode ⟨tag, .string, val⟩ = stringHead tag val.str.length ++ val.str := by
  simp [PbField.encode, payload, stringHead]

theorem pbAddStringHead_of_le {b : PbBuff} {tag : UInt32} {size : ℕ} (h : (stringHead tag size).length ≤ b.left) :
    pbAddStringHead b tag size = .ok ⟨b.out ++ stringHead tag size, b.left - (stringHead tag size).length⟩ := by
  simp only [stringHead, List.length_append] at h ⊢
  unfold pbAddStringHead
  rw [pbAddTag, pbAddVint, pbAdd_of_le (by omega)]
  simp only [Except.mapError, bind, Except.bind, pbAddVint]
  rw [pbAdd_of_le (by simp only; omega)]
  simp only [List.append_assoc, Nat.sub_sub]

/-! ### Reading fields back -/

/-- The part of a value that is written: the member the type selects, and only the
low half of a 32-bit number. -/
def PbVal.norm (type : PbType) (val : PbVal) : PbVal :=
  match type with
  | .varint | .fixed64 => { i64 := val.i64 }
  | .string => { str := val.str }
  | .fixed32 => { i64 := val.i32.toUInt64 }

/-- A field as it is read back. -/
def PbField.norm (f : PbField) : PbField := { f with val := f.val.norm f.type }

/-- A field that the wire format can hold: a field number below 2^29 and a string
whose length a varint can hold. -/
def PbField.Ok (f : PbField) : Prop := TagOk f.tag ∧ f.val.str.length < 2 ^ 64

theorem i32_norm (val : PbVal) : (val.norm .fixed32).i32 = val.i32 := UInt32.toUInt32_toUInt64 _

theorem payload_norm (type : PbType) (val : PbVal) : payload type (val.norm type) = payload type val := by
  cases type
  case fixed32 => rw [payload, payload, i32_norm]
  all_goals rfl

@[simp] theorem encode_norm (f : PbField) : f.norm.encode = f.encode := by
  rw [PbField.encode, PbField.encode, PbField.norm, payload_norm]

@[simp] theorem norm_norm (f : PbField) : f.norm.norm = f.norm := by
  obtain ⟨tag, type, val⟩ := f
  cases type
  case fixed32 =>
    simp only [PbField.norm]
    rw [PbVal.norm, i32_norm]
    rfl
  all_goals rfl

theorem PbField.Ok.norm {f : PbField} (h : f.Ok) : f.norm.Ok := by
  obtain ⟨tag, type, val⟩ := f
  refine ⟨h.1, ?_⟩
  cases type
  case string => exact h.2
  all_goals exact Nat.two_pow_pos 64

theorem encodeAll_norm (fs : List PbField) : encodeAll (fs.map PbField.norm) = encodeAll fs := by
  induction fs with
  | nil => rfl
  | cons f fs ih => rw [List.map_cons, encodeAll_cons, encodeAll_cons, encode_norm, ih]

theorem high_half_eq_zero {v : UInt64} (h : v.toNat < 2 ^ 32) : v &&& 0xFFFFFFFF00000000 = 0 := by
  rw [← UInt64.toNat_inj, UInt64.toNat_and]
  simp only [UInt64.reduceToNat]
  rw [show 18446744069414584320 = (2 ^ 32 - 1) * 2 ^ 32 from rfl, ← Nat.shiftLeft_eq]
  apply Nat.eq_of_testBit_eq
  intro i
  rw [Nat.testBit_and, Nat.testBit_shiftLeft, Nat.zero_testBit]
  by_cases hi : 32 ≤ i
  · have : v.toNat.testBit i = false :=
      Nat.testBit_lt_two_pow (Nat.lt_of_lt_of_le h (Nat.pow_le_pow_right (by decide) hi))
    simp [this]
  · simp [hi]

theorem pbGetLe_leBytes (k n : ℕ) (rest : Bytes) :
    pbGetLe k (leBytes k n ++ rest) = .ok (n % 256 ^ k, rest) := by
  have hlen : (leBytes k n).length = k := length_leBytes k n
  rw [pbGetLe, if_neg (by simp), List.take_left' hlen, List.drop_left' hlen, ofLeBytes_leBytes]

/-- The decoder reads back any field whose tag word keeps its tag and is not zero. -/
theorem pbDecodeTag_encode_of_word {f : PbField} (hlt : f.tag.toNat < 2 ^ 29) (hword : pbTagWord f.type f.tag ≠ 0)
    (hlen : f.val.str.length < 2 ^ 64) (rest : Bytes) : pbDecodeTag (f.encode ++ rest) = .ok (f.norm, rest) := by
  obtain ⟨tag, type, val⟩ := f
  simp only at hlt hword hlen
  rw [PbField.encode, List.append_assoc, pbDecodeTag, pbDecodeVarint_pbVint]
  simp only [hword, if_false, tag_of_pbTagWord hlt, code_of_pbTagWord hlt, ofCode_code]
  cases type with
  | varint =>
    simp only [payload]
    rw [pbDecodeVarint_pbVint]
    rfl
  | fixed64 =>
    simp only [payload, pbDecodeFixed64]
    rw [pbGetLe_leBytes]
    have hmod : val.i64.toNat % 256 ^ 8 = val.i64.toNat := Nat.mod_eq_of_lt val.i64.toNat_lt
    simp only [bind, Except.bind, pure, Except.pure, hmod, UInt64.ofNat_toNat]
    rfl
  | string =>
    simp only [payload, pbDecodeString, List.append_assoc]
    rw [pbDecodeVarint_pbVint]
    have hsz : (UInt64.ofNat val.str.length).toNat = val.str.length := by
      rw [UInt64.toNat_ofNat']
      exact Nat.mod_eq_of_lt hlen
    simp only [hsz, List.length_append, Nat.not_lt.mpr (Nat.le_add_right _ _), if_false, List.take_left,
      List.drop_left]
    rfl
  | fixed32 =>
    simp only [payload, pbDecodeFixed32]
    rw [pbGetLe_leBytes]
    have hhigh : pbTagWord .fixed32 tag &&& 0xFFFFFFFF00000000 = 0 := high_half_eq_zero (by
      rw [toNat_pbTagWord hlt]
      simp only [PbType.code, UInt32.reduceToNat]
      omega)
    have hmod : val.i32.toNat % 256 ^ 4 = val.i32.toNat := Nat.mod_eq_of_lt val.i32.toNat_lt
    have hlow : UInt64.ofNat val.i32.toNat = val.i32.toUInt64 := by
      rw [← UInt64.toNat_inj, UInt32.toNat_toUInt64, UInt64.toNat_ofNat']
      have := val.i32.toNat_lt
      omega
    simp only [bind, Except.bind, pure, Except.pure, hmod, hhigh, UInt64.zero_or, hlow]
    rfl

/-- **The decoder reads back the field the encoder wrote**, and stops where it ends. -/
theorem pbDecodeTag_encode {f : PbField} (h : f.Ok) (rest : Bytes) :
    pbDecodeTag (f.encode ++ rest) = .ok (f.norm, rest) :=
  pbDecodeTag_encode_of_word h.1.2 (pbTagWord_ne_zero h.1) h.2 rest

/-! ### The iteration -/

/-- A varint takes a byte at least. -/
theorem length_of_pbDecodeVarintLoop {bs : Bytes} : ∀ {bitpos : ℕ} {result v : UInt64} {rest : Bytes},
    pbDecodeVarintLoop bitpos result bs = .ok (v, rest) → rest.length < bs.length := by
  induction bs with
  | nil => intro bitpos result v rest h; rw [pbDecodeVarintLoop] at h; split at h <;> cases h
  | cons b bs ih =>
    intro bitpos result v rest h
    rw [pbDecodeVarintLoop] at h
    split at h
    · cases h
    · simp only at h
      split at h
      · have := ih h
        simp only [List.length_cons]
        omega
      · cases h
        simp

theorem length_of_pbGetLe {k n : ℕ} {bs rest : Bytes} (h : pbGetLe k bs = .ok (n, rest)) :
    rest.length ≤ bs.length := by
  rw [pbGetLe] at h
  split at h
  · cases h
  · cases h
    simp

theorem length_of_pbDecodeString {bs rest : Bytes} {val : PbVal} (h : pbDecodeString bs = .ok (val, rest)) :
    rest.length + val.str.length < bs.length := by
  rw [pbDecodeString] at h
  split at h
  · cases h
  · next sz tail hsz =>
    have hlt := length_of_pbDecodeVarintLoop hsz
    split at h
    · cases h
    · cases h
      simp only [List.length_drop, List.length_take]
      omega

/-- Every field takes a byte more than the string it holds. -/
theorem length_of_pbDecodeTag {bs rest : Bytes} {f : PbField} (h : pbDecodeTag bs = .ok (f, rest)) :
    rest.length + f.val.str.length < bs.length := by
  rw [pbDecodeTag] at h
  split at h
  · cases h
  · next v tail hv =>
    have hlt := length_of_pbDecodeVarintLoop hv
    split at h
    · cases h
    · simp only at h
      split at h
      · split at h
        · cases h
        · next hn =>
          cases h
          have := length_of_pbDecodeVarintLoop hn
          simp only [List.length_nil]
          omega
      · split at h
        · cases h
        · next hn =>
          cases h
          simp only [pbDecodeFixed64, bind, Except.bind] at hn
          split at hn
          · cases hn
          · next hget =>
            cases hn
            have := length_of_pbGetLe hget
            simp only [List.length_nil]
            omega
      · split at h
        · cases h
        · next hn =>
          cases h
          have := length_of_pbDecodeString hn
          simp only
          omega
      · split at h
        · cases h
        · next hn =>
          cases h
          simp only [pbDecodeFixed32, bind, Except.bind] at hn
          split at hn
          · cases hn
          · next hget =>
            cases hn
            have := length_of_pbGetLe hget
            simp only [List.length_nil]
            omega
      · cases h

/-- Fuel beyond the length of the bytes makes no difference. -/
theorem pbScanLoop_fuel : ∀ (fuel fuel' : ℕ) {bs : Bytes}, bs.length < fuel → bs.length < fuel' →
    pbScanLoop fuel bs = pbScanLoop fuel' bs := by
  intro fuel
  induction fuel with
  | zero => intro fuel' bs h; omega
  | succ fuel ih =>
    intro fuel' bs h h'
    obtain ⟨fuel', rfl⟩ : ∃ k, fuel' = k + 1 := ⟨fuel' - 1, by omega⟩
    simp only [pbScanLoop]
    split
    · rfl
    · next hdec =>
      have := length_of_pbDecodeTag hdec
      rw [ih fuel' (by omega) (by omega)]

theorem pbScan_of_error {bs : Bytes} {stop : PbStop} (h : pbDecodeTag bs = .error stop) :
    pbScan bs = ([], stop.eom) := by
  rw [pbScan, pbScanLoop, h]

theorem pbScan_of_ok {bs rest : Bytes} {f : PbField} (h : pbDecodeTag bs = .ok (f, rest)) :
    pbScan bs = ((f, bs.length - rest.length) :: (pbScan rest).1, (pbScan rest).2) := by
  have := length_of_pbDecodeTag h
  rw [pbScan, pbScanLoop, h, pbScan]
  simp only
  rw [pbScanLoop_fuel _ (rest.length + 1) (by omega) (by omega)]

@[simp] theorem pbBegin_nil : pbBegin [] = none := rfl

@[simp] theorem pbScan_nil : pbScan [] = ([], true) := by decide

/-- **The iteration over encoded fields yields them in order**, each with its encoded
length, and ends with `eom`. -/
theorem pbScan_encodeAll {fs : List PbField} (h : ∀ f ∈ fs, f.Ok) :
    pbScan (encodeAll fs) = (fs.map fun f => (f.norm, f.encode.length), true) := by
  induction fs with
  | nil => simp
  | cons f fs ih =>
    have hf := h f (List.mem_cons_self ..)
    rw [encodeAll_cons, pbScan_of_ok (pbDecodeTag_encode hf _), ih fun g hg => h g (List.mem_cons_of_mem _ hg)]
    simp

/-- A field of the iteration is shorter than the bytes iterated over. -/
theorem length_of_mem_pbScan {bs : Bytes} : ∀ {p : PbField × ℕ}, p ∈ (pbScan bs).1 →
    p.1.val.str.length < bs.length := by
  induction hn : bs.length using Nat.strongRecOn generalizing bs with
  | ind n ih =>
    intro p hp
    cases hdec : pbDecodeTag bs with
    | error stop => simp [pbScan_of_error hdec] at hp
    | ok r =>
      obtain ⟨f, rest⟩ := r
      have hlen := length_of_pbDecodeTag hdec
      rw [pbScan_of_ok hdec, List.mem_cons] at hp
      rcases hp with rfl | hp
      · simp only
        omega
      · have := ih rest.length (by omega) rfl hp
        omega

end KnvProto
