import KnvProto.Library.Varint

/-!
# The wire codec

`pb.h` and `pb.c`: the decoder that walks the fields of a byte string, the
encoder that appends a field to a buffer of limited room, and the predictor of
an encoded field's length.

## The model

A decoding position is the list of the bytes from `ptr` on, `left` of them; how
far `ptr` has moved is the difference of two lengths. A buffer being written is
the bytes written so far and the room `left`. The union `pb_field_val_t` is a
64-bit number, whose low half is `i32`, beside a string: no function reads the
member that the type of the field does not select. Lengths are natural numbers,
so the `int` arithmetic of the source is exact here for lengths below 2^31,
where it is exact there.
-/

namespace KnvProto

open Varint

/-- A string of bytes. -/
abbrev Bytes := List UInt8

/-- `pb_type_t`, the wire types that are used. -/
inductive PbType where
  /-- `PB_TYPE_VARINT = 0`. -/
  | varint
  /-- `PB_TYPE_FIXED64 = 1`. -/
  | fixed64
  /-- `PB_TYPE_STRING = 2`. -/
  | string
  /-- `PB_TYPE_FIXED32 = 5`. -/
  | fixed32
  deriving DecidableEq

/-- The number of a wire type. -/
def PbType.code : PbType → UInt32
  | .varint => 0
  | .fixed64 => 1
  | .string => 2
  | .fixed32 => 5

/-- The wire type of a number, if it is one of those used. -/
def PbType.ofCode (c : UInt32) : Option PbType :=
  if c = 0 then some .varint else if c = 1 then some .fixed64
  else if c = 2 then some .string else if c = 5 then some .fixed32 else none

/-- `pb_field_val_t`: the number `i64`, with `i32` its low half, or the string `str`. -/
structure PbVal where
  /-- `i64`. -/
  i64 : UInt64 := 0
  /-- `str`. -/
  str : Bytes := []
  deriving DecidableEq

/-- `i32`, the low half of `i64`. -/
def PbVal.i32 (v : PbVal) : UInt32 := v.i64.toUInt32

/-- The field part of `pb_field_t`. -/
structure PbField where
  /-- `tag`. -/
  tag : UInt32
  /-- `type`. -/
  type : PbType
  /-- `val`. -/
  val : PbVal
  deriving DecidableEq

/-! ### Decoding -/

/-- How a decoding function fails: its return code, its message, and the bytes
from `ptr` on. -/
structure PbErr where
  /-- The return code. -/
  ret : Int
  /-- `errmsg`. -/
  errmsg : String
  /-- What was left. -/
  rest : Bytes

/-- The loop of `pb_decode_varint`, at `bitpos` with `result` read so far. -/
def pbDecodeVarintLoop (bitpos : ℕ) (result : UInt64) : Bytes → Except PbErr (UInt64 × Bytes)
  | [] =>
    if 64 ≤ bitpos then .error ⟨-1, "varint overflow", []⟩ else .error ⟨-2, "end of buffer", []⟩
  | byte :: rest =>
    if 64 ≤ bitpos then .error ⟨-1, "varint overflow", byte :: rest⟩
    else
      let result := result ||| (byte &&& 0x7F).toUInt64 <<< UInt64.ofNat bitpos
      if byte &&& 0x80 ≠ 0 then pbDecodeVarintLoop (bitpos + 7) result rest else .ok (result, rest)

/-- `pb_decode_varint`. -/
def pbDecodeVarint (bs : Bytes) : Except PbErr (UInt64 × Bytes) := pbDecodeVarintLoop 0 0 bs

/-- `pb_get_dword` and `pb_get_ddword`: `k` bytes, lowest first. -/
def pbGetLe (k : ℕ) (bs : Bytes) : Except PbErr (ℕ × Bytes) :=
  if bs.length < k then .error ⟨-1, "end of buffer", bs⟩ else .ok (ofLeBytes (bs.take k), bs.drop k)

/-- `pb_decode_fixed64`. -/
def pbDecodeFixed64 (bs : Bytes) : Except PbErr (PbVal × Bytes) := do
  let (n, rest) ← pbGetLe 8 bs
  return ({ i64 := UInt64.ofNat n }, rest)

/-- `pb_decode_fixed32`: only the low half of the union is written, the high half
keeps what `old` holds there. -/
def pbDecodeFixed32 (old : UInt64) (bs : Bytes) : Except PbErr (PbVal × Bytes) := do
  let (n, rest) ← pbGetLe 4 bs
  return ({ i64 := old &&& 0xFFFFFFFF00000000 ||| UInt64.ofNat n }, rest)

/-- `pb_decode_string`. -/
def pbDecodeString (bs : Bytes) : Except PbErr (PbVal × Bytes) :=
  match pbDecodeVarint bs with
  | .error e => .error { e with ret := -1 }
  | .ok (sz, rest) =>
    if rest.length < sz.toNat then .error ⟨-2, "string overflow", rest⟩
    else .ok ({ str := rest.take sz.toNat }, rest.drop sz.toNat)

/-- How `pb_decode_tag` ends an iteration: its return code, its message, and
whether it set `eom`. -/
structure PbStop where
  /-- The return code. -/
  ret : Int
  /-- `errmsg`. -/
  errmsg : String
  /-- `eom`. -/
  eom : Bool

/-- An error of decoding a value ends the iteration without `eom`. -/
def PbErr.stop (e : PbErr) : PbStop := ⟨e.ret, e.errmsg, false⟩

/-- `pb_decode_tag`: the next field and the bytes after it. `pb_begin` and
`pb_next` are this function on the bytes that are left. -/
def pbDecodeTag (bs : Bytes) : Except PbStop (PbField × Bytes) :=
  match pbDecodeVarint bs with
  | .error e => .error ⟨-1, e.errmsg, e.rest.isEmpty⟩ -- nothing left signals end-of-message
  | .ok (v, rest) =>
    if v = 0 then .error ⟨-2, "0-terminated msg", true⟩
    else
      let tag := (v >>> 3).toUInt32
      match PbType.ofCode (v.toUInt32 &&& 7) with
      | some .varint =>
        match pbDecodeVarint rest with
        | .error e => .error e.stop
        | .ok (n, rest) => .ok (⟨tag, .varint, { i64 := n }⟩, rest)
      | some .fixed64 =>
        match pbDecodeFixed64 rest with
        | .error e => .error e.stop
        | .ok (val, rest) => .ok (⟨tag, .fixed64, val⟩, rest)
      | some .string =>
        match pbDecodeString rest with
        | .error e => .error e.stop
        | .ok (val, rest) => .ok (⟨tag, .string, val⟩, rest)
      | some .fixed32 =>
        match pbDecodeFixed32 v rest with
        | .error e => .error e.stop
        | .ok (val, rest) => .ok (⟨tag, .fixed32, val⟩, rest)
      | none => .error ⟨-3, "invalid type", false⟩

/-- `pb_begin`. -/
def pbBegin (bs : Bytes) : Option (PbField × Bytes) := (pbDecodeTag bs).toOption

/-- The iteration `for(pf=pb_begin(..); pf; pf=pb_next(pf))`, at most `fuel` fields:
every field with the count of bytes it took, and `eom` at the end. -/
def pbScanLoop : ℕ → Bytes → List (PbField × ℕ) × Bool
  | 0, _ => ([], false)
  | fuel + 1, bs =>
    match pbDecodeTag bs with
    | .error stop => ([], stop.eom)
    | .ok (f, rest) =>
      let (fs, eom) := pbScanLoop fuel rest
      ((f, bs.length - rest.length) :: fs, eom)

/-- The whole iteration over `bs`: every field takes a byte at least. -/
def pbScan (bs : Bytes) : List (PbField × ℕ) × Bool := pbScanLoop (bs.length + 1) bs

/-! ### Encoding -/

/-- `pb_buff_t`: what has been written, and the room left. -/
structure PbBuff where
  /-- The bytes from `start` to `ptr`. -/
  out : Bytes
  /-- `left`. -/
  left : ℕ

/-- How an encoding function fails: its return code, its message, and the buffer
as it leaves it. -/
structure PbFull where
  /-- The return code. -/
  ret : Int
  /-- `errmsg`. -/
  errmsg : String
  /-- The buffer. -/
  buff : PbBuff

/-- `pb_init_buff`. -/
def pbInitBuff (sz : ℕ) : PbBuff := ⟨[], sz⟩

/-- `pb_add`, `pb_add_dword` and `pb_add_ddword`. -/
def pbAdd (b : PbBuff) (bs : Bytes) : Except PbFull PbBuff :=
  if b.left < bs.length then .error ⟨-1, "buf overflow", b⟩
  else .ok ⟨b.out ++ bs, b.left - bs.length⟩

/-- The `while (value)` loop of `pb_add_vint`, which fills `buffer[10]`. -/
def pbVintLoop : ℕ → UInt64 → Bytes
  | 0, _ => []
  | room + 1, value =>
    if value = 0 then [] else ((value &&& 0x7F) ||| 0x80).toUInt8 :: pbVintLoop room (value >>> 7)

/-- The bytes `pb_add_vint` adds: the top bit of the last one is unset. -/
def pbVint (value : UInt64) : Bytes :=
  if value = 0 then [0]
  else
    let buffer := pbVintLoop 10 value
    buffer.dropLast ++ [buffer.getLastD 0 &&& 0x7F]

/-- `pb_add_vint`. -/
def pbAddVint (b : PbBuff) (value : UInt64) : Except PbFull PbBuff := pbAdd b (pbVint value)

/-- `wiretype | (field_number << 3)`, computed in 32 bits. -/
def pbTagWord (type : PbType) (tag : UInt32) : UInt64 := (type.code ||| tag <<< 3).toUInt64

/-- `pb_add_tag`. -/
def pbAddTag (b : PbBuff) (type : PbType) (tag : UInt32) : Except PbFull PbBuff :=
  pbAddVint b (pbTagWord type tag)

/-- A failure passed on under another return code. -/
def PbFull.as (e : PbFull) (ret : Int) : PbFull := { e with ret := ret }

/-- `pb_add_field_val`. -/
def pbAddFieldVal (b : PbBuff) (tag : UInt32) (type : PbType) (val : PbVal) : Except PbFull PbBuff := do
  let b ← (pbAddTag b type tag).mapError (·.as (-1))
  match type with
  | .varint => pbAddVint b val.i64
  | .fixed64 => pbAdd b (leBytes 8 val.i64.toNat)
  | .string =>
    let b ← (pbAddVint b (UInt64.ofNat val.str.length)).mapError (·.as (-2))
    pbAdd b val.str
  | .fixed32 => pbAdd b (leBytes 4 val.i32.toNat)

/-- `pb_add_field`. -/
def pbAddField (b : PbBuff) (f : PbField) : Except PbFull PbBuff := pbAddFieldVal b f.tag f.type f.val

/-- `pb_add_string_head`: tag, type and length of a string of length `size`. -/
def pbAddStringHead (b : PbBuff) (tag : UInt32) (size : ℕ) : Except PbFull PbBuff := do
  let b ← (pbAddTag b .string tag).mapError (·.as (-1))
  pbAddVint b (UInt64.ofNat size)

/-! ### Predicting lengths -/

/-- The loop of `pb_eval_vint_length`: a 64-bit value takes ten turns at most. -/
def pbEvalVintLoop : ℕ → UInt64 → ℕ
  | 0, _ => 0
  | room + 1, value => if value = 0 then 0 else pbEvalVintLoop room (value >>> 7) + 1

/-- `pb_eval_vint_length`. -/
def pbEvalVintLength (value : UInt64) : ℕ := if value = 0 then 1 else pbEvalVintLoop 10 value

/-- `pb_eval_tag_length`. -/
def pbEvalTagLength (type : PbType) (tag : UInt32) : ℕ := pbEvalVintLength (pbTagWord type tag)

/-- `pb_eval_field_length` of a value whose number is `i64` and whose string has
length `len`: the callers that know only a length set only `str.len`. -/
def pbEvalLength (tag : UInt32) (type : PbType) (i64 : UInt64) (len : ℕ) : ℕ :=
  match type with
  | .varint => pbEvalTagLength type tag + pbEvalVintLength i64
  | .fixed64 => pbEvalTagLength type tag + 8
  | .fixed32 => pbEvalTagLength type tag + 4
  | .string => pbEvalTagLength type tag + pbEvalVintLength (UInt64.ofNat len) + len

/-- `pb_eval_field_length`. -/
def pbEvalFieldLength (tag : UInt32) (type : PbType) (val : PbVal) : ℕ :=
  pbEvalLength tag type val.i64 val.str.length

end KnvProto
