import Mathlib.Data.Int.Notation
import KnvProto.Codec.Stream

/-!
# The decoder in memory

The functions of `pb.c` that walk over the fields of a message, as they are
written: with the cursor `ptr`, the signed count `left` and the union `val` of
`pb_field_t`, in a memory in which what is before and after the input can be read,
too.

## The model

Addresses are offsets from `start`, so the input of length `dlen` is at the offsets
below `dlen`. A cursor keeps the offsets of the bytes that have been read (`reads`),
which the source does not. A comparison of `left` with a `size_t` or a `uint64_t` is
made on its unsigned value (`asUnsigned`).

`Advanced` is what every function does to a cursor, whether it succeeds or not; the
bounds of a whole iteration are those of its calls (`bounds_of_run`). `decodeTag_eq`
relates the cursor to the decoder on byte strings. Skipping a field is compared with
decoding it in `skipAgrees_iff`.
-/

namespace KnvProto

open Varint

/-! ### The functions -/

/-- `pb_field_val_t`: `i64`, whose low half is both `i32` and `str.len`, and `str.data` behind it. -/
structure PbUnion where
  /-- `i64`. -/
  i64 : UInt64 := 0
  /-- `str.data`. -/
  data : ℤ := 0

/-- `i32`. -/
def PbUnion.i32 (v : PbUnion) : UInt32 := v.i64.toUInt32

/-- `str.len`. -/
def PbUnion.len (v : PbUnion) : UInt32 := v.i64.toUInt32

/-- Write the low half. -/
def PbUnion.setLow (v : PbUnion) (x : UInt32) : PbUnion :=
  { v with i64 := v.i64 &&& 0xFFFFFFFF00000000 ||| x.toUInt64 }

/-- `pb_field_t`. -/
structure PbCursor where
  /-- `tag`. -/
  tag : UInt32
  /-- `eom`. -/
  eom : Bool
  /-- `type`, any three bits. -/
  type : UInt32
  /-- `val`. -/
  val : PbUnion
  /-- `ptr`, from `start` on. -/
  ptr : ℤ
  /-- `left`. -/
  left : ℤ
  /-- `errmsg`. -/
  errmsg : Option String
  /-- The bytes that have been read. -/
  reads : List ℤ

/-- `k` bytes of a memory, from an offset on. -/
def window (mem : ℤ → UInt8) : ℤ → ℕ → Bytes
  | _, 0 => []
  | p, k + 1 => mem p :: window mem (p + 1) k

/-- An `int` as an operand of an unsigned comparison of 64 bits. -/
def asUnsigned (left : ℤ) : ℕ := (left % 2 ^ 64).toNat

/-- What a function returns: 0 and a value, or another return code. -/
abbrev PbRet (α : Type) := Except ℤ α × PbCursor

namespace PbCursor

/-- `RETURN_WITH_ERROR`: a message that is there stays. -/
def fail {α : Type} (c : PbCursor) (ret : ℤ) (msg : String) : PbRet α :=
  (.error ret, { c with errmsg := some (c.errmsg.getD msg) })

/-- Go on by `k` bytes. -/
def advance (c : PbCursor) (k : ℕ) : PbCursor := { c with ptr := c.ptr + k, left := c.left - k }

variable (mem : ℤ → UInt8)

/-- `pb_get` without a buffer. -/
def get (count : ℕ) (c : PbCursor) : PbRet Unit :=
  if asUnsigned c.left < count then c.fail (-1) "end of buffer" else (.ok (), c.advance count)

/-- `pb_get_byte`. -/
def getByte (c : PbCursor) : PbRet UInt8 :=
  if c.left < 1 then c.fail (-1) "end of buffer"
  else (.ok (mem c.ptr), { c.advance 1 with reads := c.ptr :: c.reads })

/-- `pb_get_dword` and `pb_get_ddword`, of `k` bytes. -/
def getWord (k : ℕ) (c : PbCursor) : PbRet ℕ :=
  if c.left < k then c.fail (-1) "end of buffer"
  else (.ok (ofLeBytes (window mem c.ptr k)),
    { c.advance k with reads := ((List.range k).map fun i : ℕ => c.ptr + i) ++ c.reads })

/-- `pb_get_dword` and `pb_get_ddword` without a buffer. -/
def skipWord (k : ℕ) (c : PbCursor) : PbRet Unit :=
  if c.left < k then c.fail (-1) "end of buffer" else (.ok (), c.advance k)

/-- The loop of `pb_decode_varint`; `bitpos` is past 64 after ten turns. -/
def decodeVarintLoop : ℕ → ℕ → UInt64 → PbCursor → PbRet Unit
  | 0, _, _, c => c.fail (-1) "varint overflow"
  | turns + 1, bitpos, result, c =>
    if 64 ≤ bitpos then c.fail (-1) "varint overflow"
    else
      match c.getByte mem with
      | (.error _, c) => (.error (-2), c)
      | (.ok byte, c) =>
        let result := result ||| (byte &&& 0x7F).toUInt64 <<< UInt64.ofNat bitpos
        if byte &&& 0x80 ≠ 0 then decodeVarintLoop turns (bitpos + 7) result c
        else (.ok (), { c with val := { c.val with i64 := result } })

/-- `pb_decode_varint`. -/
def decodeVarint (c : PbCursor) : PbRet Unit := decodeVarintLoop mem 11 0 0 c

/-- `pb_decode_fixed32`. -/
def decodeFixed32 (c : PbCursor) : PbRet Unit :=
  match c.getWord mem 4 with
  | (.error e, c) => (.error e, c)
  | (.ok n, c) => (.ok (), { c with val := c.val.setLow (UInt32.ofNat n) })

/-- `pb_decode_fixed64`. -/
def decodeFixed64 (c : PbCursor) : PbRet Unit :=
  match c.getWord mem 8 with
  | (.error e, c) => (.error e, c)
  | (.ok n, c) => (.ok (), { c with val := { c.val with i64 := UInt64.ofNat n } })

/-- `pb_decode_string`. -/
def decodeString (c : PbCursor) : PbRet Unit :=
  match c.decodeVarint mem with
  | (.error _, c) => (.error (-1), c)
  | (.ok _, c) =>
    if asUnsigned c.left < c.val.i64.toNat then c.fail (-2) "string overflow"
    else
      let sz := c.val.i64.toUInt32
      (.ok (), { c with val := { c.val.setLow sz with data := c.ptr } }.advance sz.toNat)

/-- The value of a field, as `pb_decode_tag` decodes it. -/
def decodeVal : PbType → PbCursor → PbRet Unit
  | .varint, c => c.decodeVarint mem
  | .fixed64, c => c.decodeFixed64 mem
  | .string, c => c.decodeString mem
  | .fixed32, c => c.decodeFixed32 mem

/-- `pb_decode_tag`. -/
def decodeTag (c : PbCursor) : PbRet Unit :=
  match c.decodeVarint mem with
  | (.error _, c) => (.error (-1), if c.left = 0 then { c with eom := true } else c) -- signal end-of-message
  | (.ok _, c) =>
    -- Allow 0-terminated messages.
    if c.val.i64 = 0 then { c with eom := true }.fail (-2) "0-terminated msg"
    else
      let c := { c with tag := (c.val.i64 >>> 3).toUInt32, type := c.val.i32 &&& 7 }
      match PbType.ofCode c.type with
      | some type => c.decodeVal mem type
      | none => c.fail (-3) "invalid type"

/-- The loop of `pb_skip_varint`, which takes a byte a turn: it returns 0 at the end of the buffer, too. -/
def skipVarintLoop : ℕ → PbCursor → PbRet Unit
  | 0, c => (.ok (), c)
  | turns + 1, c =>
    match c.getByte mem with
    | (.error _, c) => (.ok (), c)
    | (.ok byte, c) => if byte &&& 0x80 ≠ 0 then skipVarintLoop turns c else (.ok (), c)

/-- `pb_skip_varint`. -/
def skipVarint (c : PbCursor) : PbRet Unit := skipVarintLoop mem (c.left.toNat + 1) c

/-- `pb_skip_string`: the length is taken in 32 bits. -/
def skipString (c : PbCursor) : PbRet Unit :=
  match c.decodeVarint mem with
  | (.error _, c) => (.error (-1), c)
  | (.ok _, c) => c.get c.val.i32.toNat

/-- `pb_skip_field`. -/
def skipField : PbType → PbCursor → PbRet Unit
  | .varint, c => c.skipVarint mem
  | .fixed64, c => c.skipWord 8
  | .string, c => c.skipString mem
  | .fixed32, c => c.skipWord 4

/-- `pb_begin`, on a `pb_field_t` that may hold anything. -/
def pbBegin (f : PbCursor) (dlen : ℤ) : PbRet Unit :=
  { f with ptr := 0, left := dlen, eom := false, errmsg := none, reads := [] }.decodeTag mem

/-- `pb_begin_delimited`: an old `errmsg` stays. -/
def pbBeginDelimited (f : PbCursor) (dlen : ℤ) : PbRet Unit :=
  match { f with ptr := 0, left := dlen, eom := false, reads := [] }.decodeVarint mem with
  | (.error e, c) => (.error e, c)
  | (.ok _, c) =>
    if asUnsigned c.left < c.val.i64.toNat then c.fail (-1) "delimited overflow"
    else { c with left := c.val.i64.toNat }.decodeTag mem

/-- `pb_next`. -/
def pbNext (c : PbCursor) : PbRet Unit := c.decodeTag mem

/-! ### Going on -/

/-- The cursor has gone on by `k` bytes at least, to a place before the end, and has read nothing but what it has
gone over. -/
structure Advanced (k : ℕ) (c c' : PbCursor) : Prop where
  ptr : c.ptr + k ≤ c'.ptr
  fin : c'.ptr + c'.left = c.ptr + c.left
  left : 0 ≤ c'.left
  reads : ∀ r ∈ c'.reads, r ∈ c.reads ∨ c.ptr ≤ r ∧ r < c'.ptr

/-- What every function does: it goes on, and by `k` bytes at least when it succeeds. -/
def Moves {α : Type} (k : ℕ) (c : PbCursor) (x : PbRet α) : Prop := Advanced (if x.1.isOk then k else 0) c x.2

variable {mem : ℤ → UInt8} {c c' c'' : PbCursor} {k l : ℕ}

theorem Advanced.refl (h : 0 ≤ c.left) : Advanced 0 c c := ⟨by omega, rfl, h, fun _ hr => .inl hr⟩

theorem Advanced.trans (h : Advanced k c c') (h' : Advanced l c' c'') : Advanced (k + l) c c'' where
  ptr := by
    have := h.ptr
    have := h'.ptr
    omega
  fin := h'.fin.trans h.fin
  left := h'.left
  reads r hr := by
    have := h.ptr
    have := h'.ptr
    rcases h'.reads r hr with hr | hr
    · rcases h.reads r hr with hr | hr
      · exact .inl hr
      · exact .inr ⟨hr.1, by omega⟩
    · exact .inr ⟨by omega, hr.2⟩

theorem Advanced.mono (h : Advanced k c c') (hl : l ≤ k) : Advanced l c c' where
  ptr := by
    have := h.ptr
    omega
  fin := h.fin
  left := h.left
  reads := h.reads

theorem Moves.mono {α : Type} {x : PbRet α} (h : Moves k c x) (hl : l ≤ k) : Moves l c x :=
  Advanced.mono h (by split <;> omega)

/-- Only `ptr`, `left` and what has been read matter. -/
theorem Advanced.of_eq (h : Advanced k c c') (hptr : c''.ptr = c'.ptr) (hleft : c''.left = c'.left)
    (hreads : c''.reads = c'.reads) : Advanced k c c'' where
  ptr := hptr ▸ h.ptr
  fin := by rw [hptr, hleft, h.fin]
  left := hleft ▸ h.left
  reads r hr := by
    rw [hptr]
    exact h.reads r (hreads ▸ hr)

@[simp] theorem ptr_advance (c : PbCursor) (k : ℕ) : (c.advance k).ptr = c.ptr + k := rfl

@[simp] theorem left_advance (c : PbCursor) (k : ℕ) : (c.advance k).left = c.left - k := rfl

@[simp] theorem reads_advance (c : PbCursor) (k : ℕ) : (c.advance k).reads = c.reads := rfl

theorem advanced_advance (h : (k : ℤ) ≤ c.left) : Advanced k c (c.advance k) where
  ptr := Int.le_refl _
  fin := by
    rw [ptr_advance, left_advance]
    omega
  left := by
    rw [left_advance]
    omega
  reads _ hr := .inl hr

theorem moves_fail {α : Type} (h : 0 ≤ c.left) (ret : ℤ) (msg : String) :
    Moves k c (c.fail ret msg : PbRet α) :=
  (Advanced.refl h).of_eq rfl rfl rfl

theorem moves_getByte (h : 0 ≤ c.left) : Moves 1 c (c.getByte mem) := by
  unfold getByte
  split
  · exact moves_fail h _ _
  · have hadv : Advanced 1 c (c.advance 1) := advanced_advance (by omega)
    refine ⟨hadv.ptr, hadv.fin, hadv.left, fun r hr => ?_⟩
    rcases List.mem_cons.mp hr with rfl | hr
    · exact .inr ⟨Int.le_refl _, Int.lt_succ _⟩
    · exact .inl hr

theorem moves_getWord (h : 0 ≤ c.left) : Moves k c (c.getWord mem k) := by
  unfold getWord
  split
  · exact moves_fail h _ _
  · have hadv : Advanced k c (c.advance k) := advanced_advance (by omega)
    refine ⟨hadv.ptr, hadv.fin, hadv.left, fun r hr => ?_⟩
    rcases List.mem_append.mp hr with hr | hr
    · obtain ⟨i, hi, rfl⟩ := List.mem_map.mp hr
      have hlt : i < k := List.mem_range.mp hi
      exact .inr ⟨by omega, show c.ptr + i < c.ptr + k by omega⟩
    · exact .inl hr

theorem moves_decodeVarintLoop : ∀ (turns bitpos : ℕ) (result : UInt64) {c : PbCursor}, 0 ≤ c.left →
    Moves 1 c (decodeVarintLoop mem turns bitpos result c) := by
  intro turns
  induction turns with
  | zero => exact fun _ _ _ h => moves_fail h _ _
  | succ turns ih =>
    intro bitpos result c h
    unfold decodeVarintLoop
    split
    · exact moves_fail h _ _
    have hbyte : Moves 1 c (c.getByte mem) := moves_getByte h
    generalize c.getByte mem = x at hbyte
    obtain ⟨e | byte, c1⟩ := x
    · exact hbyte
    have hone : Advanced 1 c c1 := hbyte
    simp only
    split
    · exact (hone.trans (ih _ _ hone.left)).mono (by split <;> omega)
    · exact hone.of_eq rfl rfl rfl

theorem moves_decodeVarint (h : 0 ≤ c.left) : Moves 1 c (c.decodeVarint mem) := moves_decodeVarintLoop 11 0 0 h

theorem asUnsigned_of_nonneg {a : ℤ} (h : 0 ≤ a) (hlt : a < 2 ^ 31) : (asUnsigned a : ℤ) = a := by
  rw [asUnsigned, Int.emod_eq_of_lt h (by omega), Int.toNat_of_nonneg h]

theorem asUnsigned_lt_iff {a : ℤ} (h : 0 ≤ a) (hlt : a < 2 ^ 31) (n : ℕ) : asUnsigned a < n ↔ a < n := by
  have := asUnsigned_of_nonneg h hlt
  omega

theorem moves_decodeFixed32 (h : 0 ≤ c.left) : Moves 4 c (c.decodeFixed32 mem) := by
  unfold decodeFixed32
  have hword : Moves 4 c (c.getWord mem 4) := moves_getWord h
  generalize c.getWord mem 4 = x at hword
  obtain ⟨e | n, c1⟩ := x
  · exact hword
  · exact Advanced.of_eq hword rfl rfl rfl

theorem moves_decodeFixed64 (h : 0 ≤ c.left) : Moves 8 c (c.decodeFixed64 mem) := by
  unfold decodeFixed64
  have hword : Moves 8 c (c.getWord mem 8) := moves_getWord h
  generalize c.getWord mem 8 = x at hword
  obtain ⟨e | n, c1⟩ := x
  · exact hword
  · exact Advanced.of_eq hword rfl rfl rfl

theorem len_setLow (v : PbUnion) (x : UInt32) : (v.setLow x).len = x := by
  have hhigh : (0xFFFFFFFF00000000 : UInt64).toUInt32 = 0 := rfl
  rw [PbUnion.len, PbUnion.setLow, UInt64.toUInt32_or, UInt64.toUInt32_and, hhigh, UInt32.toUInt32_toUInt64]
  simp

/-- What `pb_decode_string` leaves when it succeeds: the value is what it has gone over last. -/
theorem decodeString_spec (h : 0 ≤ c.left) (hlt : c.left < 2 ^ 31) :
    Moves 1 c (c.decodeString mem) ∧ ((c.decodeString mem).1.isOk = true →
      c.ptr ≤ (c.decodeString mem).2.val.data ∧
      (c.decodeString mem).2.val.data + (c.decodeString mem).2.val.len.toNat = (c.decodeString mem).2.ptr) := by
  unfold decodeString
  have hlen : Moves 1 c (c.decodeVarint mem) := moves_decodeVarint h
  generalize c.decodeVarint mem = x at hlen
  obtain ⟨e | _, c1⟩ := x
  · exact ⟨hlen, nofun⟩
  have hone : Advanced 1 c c1 := hlen
  have hptr := hone.ptr
  have hfin := hone.fin
  simp only
  split
  · exact ⟨(hone.mono (Nat.zero_le 1)).of_eq rfl rfl rfl, nofun⟩
  next hfits =>
  rw [asUnsigned_lt_iff hone.left (by omega), Int.not_lt] at hfits
  have hsz : c1.val.i64.toUInt32.toNat = c1.val.i64.toNat := by
    rw [UInt64.toNat_toUInt32]
    omega
  have hover : Advanced c1.val.i64.toUInt32.toNat c1 (c1.advance c1.val.i64.toUInt32.toNat) :=
    advanced_advance (by omega)
  refine ⟨((hone.trans hover).mono (Nat.le_add_right 1 _)).of_eq rfl rfl rfl, fun _ => ⟨show c.ptr ≤ c1.ptr by omega, ?_⟩⟩
  rw [show ∀ c : PbCursor, (c.advance c1.val.i64.toUInt32.toNat).val = c.val from fun _ => rfl]
  simp only [PbUnion.len]
  rw [show (c1.val.setLow c1.val.i64.toUInt32).i64.toUInt32 = c1.val.i64.toUInt32 from len_setLow _ _]
  rfl

theorem moves_decodeVal (type : PbType) (h : 0 ≤ c.left) (hlt : c.left < 2 ^ 31) :
    Moves 1 c (c.decodeVal mem type) := by
  cases type with
  | varint => exact moves_decodeVarint h
  | fixed64 => exact (moves_decodeFixed64 h).mono (by decide)
  | string => exact (decodeString_spec h hlt).1
  | fixed32 => exact (moves_decodeFixed32 h).mono (by decide)

/-- The value of the field that a cursor has been left at, if it is a string, is in what has been gone over since `p`. -/
def StringWithin (p : ℤ) (c : PbCursor) : Prop :=
  PbType.ofCode c.type = some .string → p ≤ c.val.data ∧ c.val.data + c.val.len.toNat ≤ c.ptr

/-- Decoding a value does not change the type. -/
theorem type_decodeVarintLoop : ∀ (turns bitpos : ℕ) (result : UInt64) (c : PbCursor),
    (decodeVarintLoop mem turns bitpos result c).2.type = c.type := by
  intro turns
  induction turns with
  | zero => exact fun _ _ _ => rfl
  | succ turns ih =>
    intro bitpos result c
    unfold decodeVarintLoop
    split
    · rfl
    have hbyte : (c.getByte mem).2.type = c.type := by
      unfold getByte
      split <;> rfl
    generalize c.getByte mem = x at hbyte
    obtain ⟨e | byte, c1⟩ := x
    · exact hbyte
    simp only
    split
    · exact (ih _ _ c1).trans hbyte
    · exact hbyte

theorem type_getWord (k : ℕ) (c : PbCursor) : (c.getWord mem k).2.type = c.type := by
  unfold getWord
  split <;> rfl

theorem type_decodeVal (type : PbType) (c : PbCursor) : (c.decodeVal mem type).2.type = c.type := by
  cases type with
  | varint => exact type_decodeVarintLoop ..
  | fixed64 =>
    rw [decodeVal, decodeFixed64]
    have hword := @type_getWord mem 8 c
    generalize c.getWord mem 8 = x at hword
    obtain ⟨e | n, c1⟩ := x <;> exact hword
  | string =>
    rw [decodeVal, decodeString]
    have hlen : (c.decodeVarint mem).2.type = c.type := type_decodeVarintLoop ..
    generalize c.decodeVarint mem = x at hlen
    obtain ⟨e | _, c1⟩ := x
    · exact hlen
    simp only
    split <;> exact hlen
  | fixed32 =>
    rw [decodeVal, decodeFixed32]
    have hword := @type_getWord mem 4 c
    generalize c.getWord mem 4 = x at hword
    obtain ⟨e | n, c1⟩ := x <;> exact hword

/-- What `pb_decode_tag` does: a field takes two bytes at least, and a string lies in what it has gone over. -/
theorem decodeTag_spec (h : 0 ≤ c.left) (hlt : c.left < 2 ^ 31) :
    Moves 2 c (c.decodeTag mem) ∧ ((c.decodeTag mem).1.isOk = true → StringWithin c.ptr (c.decodeTag mem).2) := by
  unfold decodeTag
  have hword : Moves 1 c (c.decodeVarint mem) := moves_decodeVarint h
  generalize c.decodeVarint mem = x at hword
  obtain ⟨e | _, c1⟩ := x
  · refine ⟨Advanced.of_eq hword ?_ ?_ ?_, nofun⟩ <;>
    · simp only
      split <;> rfl
  have hone : Advanced 1 c c1 := hword
  simp only
  split
  · exact ⟨(hone.mono (Nat.zero_le 1)).of_eq rfl rfl rfl, nofun⟩
  set c2 : PbCursor := { c1 with tag := (c1.val.i64 >>> 3).toUInt32, type := c1.val.i32 &&& 7 }
  have hone' : Advanced 1 c c2 := hone.of_eq rfl rfl rfl
  have hptr := hone'.ptr
  have hfin := hone'.fin
  split
  · next type htype =>
    have hval : Moves 1 c2 (c2.decodeVal mem type) := moves_decodeVal type hone'.left (by omega)
    refine ⟨(hone'.trans hval).mono (by split <;> omega), fun hok hstring => ?_⟩
    rw [type_decodeVal, htype] at hstring
    cases hstring
    obtain ⟨hdata, hend⟩ := (decodeString_spec hone'.left (by omega)).2 hok
    exact ⟨by rw [decodeVal]; omega, by rw [decodeVal]; omega⟩
  · exact ⟨(hone'.mono (Nat.zero_le 1)).of_eq rfl rfl rfl, nofun⟩

/-- A cursor before any call, with `left` bytes. -/
def blank (left : ℤ) : PbCursor := ⟨0, false, 0, {}, 0, left, none, []⟩

/-! ### Runs -/

/-- `k` calls of `pb_begin` or `pb_begin_delimited` and then of `pb_next`, each while the one before has returned a
field: the last of them started at offset `p`, and `x` is what it left. -/
inductive PbRun (mem : ℤ → UInt8) (dlen : ℕ) : ℕ → ℤ → PbRet Unit → Prop
  | begin (f : PbCursor) : PbRun mem dlen 1 0 (f.pbBegin mem dlen)
  | beginDelimited (f : PbCursor) : PbRun mem dlen 1 0 (f.pbBeginDelimited mem dlen)
  | next {k : ℕ} {p : ℤ} {x : PbRet Unit} : PbRun mem dlen k p x → x.1.isOk = true →
      PbRun mem dlen (k + 1) x.2.ptr (x.2.pbNext mem)

/-- What holds after `k` calls on an input of `dlen` bytes, the last of which started at offset `p`. -/
structure InBounds (dlen k : ℕ) (p : ℤ) (x : PbRet Unit) : Prop where
  /-- Every byte read lies inside the input. -/
  reads : ∀ r ∈ x.2.reads, 0 ≤ r ∧ r < dlen
  /-- `ptr` has not decreased. -/
  ptr : 0 ≤ p ∧ p ≤ x.2.ptr
  /-- `left` is not negative. -/
  left : 0 ≤ x.2.left
  /-- What is left ends inside the input. -/
  fin : x.2.ptr + x.2.left ≤ dlen
  /-- A string that has been returned lies inside the input. -/
  string : x.1.isOk = true → PbType.ofCode x.2.type = some .string →
    0 ≤ x.2.val.data ∧ x.2.val.data + x.2.val.len.toNat ≤ dlen
  /-- A call that returned a field has consumed two bytes at least. -/
  consumed : x.1.isOk = true → p + 2 ≤ x.2.ptr
  /-- All calls that returned a field together. -/
  taken : x.1.isOk = true → 2 * k ≤ x.2.ptr
  /-- The number of calls is bounded. -/
  calls : k ≤ dlen / 2 + 1
  /-- The last call that there can be returns NULL. -/
  ends : dlen / 2 < k → x.1.isOk = false

variable {dlen : ℕ} {p : ℤ} {x : PbRet Unit}

/-- The bounds of a call that starts at `c`: `left` may have been cut to what a length says. -/
theorem inBounds_decodeTag (hlen : dlen < 2 ^ 31) (hreads : ∀ r ∈ c.reads, 0 ≤ r ∧ r < dlen) (hp : 0 ≤ p)
    (hptr : p ≤ c.ptr) (hleft : 0 ≤ c.left) (hfin : c.ptr + c.left ≤ dlen) (hk : 2 * k ≤ c.ptr) :
    InBounds dlen (k + 1) p (c.decodeTag mem) := by
  obtain ⟨hmoves, hstring⟩ := @decodeTag_spec mem c hleft (by omega)
  generalize c.decodeTag mem = x at hmoves hstring
  have hmptr := hmoves.ptr
  have hmfin := hmoves.fin
  have hmleft := hmoves.left
  have htwo : x.1.isOk = true → c.ptr + 2 ≤ x.2.ptr := by
    intro hok
    rw [if_pos hok] at hmptr
    exact hmptr
  exact
    { reads := fun r hr => by
        rcases hmoves.reads r hr with hr | hr
        · exact hreads r hr
        · omega
      ptr := ⟨hp, by omega⟩
      left := hmleft
      fin := by omega
      string := fun hok htype => by
        obtain ⟨hdata, hend⟩ := hstring hok htype
        omega
      consumed := fun hok => by
        have := htwo hok
        omega
      taken := fun hok => by
        have := htwo hok
        omega
      calls := by omega
      ends := fun hlast => by
        rw [← Bool.not_eq_true]
        intro hok
        have := htwo hok
        omega }

theorem inBounds_beginDelimited (hlen : dlen < 2 ^ 31) (f : PbCursor) :
    InBounds dlen 1 0 (f.pbBeginDelimited mem dlen) := by
  unfold pbBeginDelimited
  set c : PbCursor := { f with ptr := 0, left := dlen, eom := false, reads := [] }
  have hword : Moves 1 c (c.decodeVarint mem) := moves_decodeVarint (Int.natCast_nonneg dlen)
  have hstart : c.ptr = 0 ∧ c.left = dlen ∧ c.reads = [] := ⟨rfl, rfl, rfl⟩
  obtain ⟨hptr, hleft, hnil⟩ := hstart
  generalize c.decodeVarint mem = x at hword
  obtain ⟨ret, c1⟩ := x
  have hmptr := hword.ptr
  have hmfin := hword.fin
  have hmleft := hword.left
  have hreads : ∀ r ∈ c1.reads, 0 ≤ r ∧ r < dlen := by
    intro r hr
    rcases hword.reads r hr with hr | hr
    · rw [hnil] at hr
      exact absurd hr List.not_mem_nil
    · simp only at hmptr hmfin hmleft hr
      omega
  simp only at hmptr hmfin hmleft
  have hnull : ∀ c' : PbCursor, c'.ptr = c1.ptr → c'.left = c1.left → c'.reads = c1.reads → ∀ e : ℤ,
      InBounds dlen 1 0 (.error e, c') := by
    intro c' hptr' hleft' hreads' e
    exact
      { reads := fun r hr => hreads r (hreads' ▸ hr)
        ptr := ⟨Int.le_refl _, show 0 ≤ c'.ptr by omega⟩
        left := show 0 ≤ c'.left by omega
        fin := show c'.ptr + c'.left ≤ dlen by omega
        string := nofun
        consumed := nofun
        taken := nofun
        calls := by omega
        ends := fun _ => rfl }
  cases ret with
  | error e => exact hnull c1 rfl rfl rfl e
  | ok _ =>
    simp only
    split
    · exact hnull { c1 with errmsg := some (c1.errmsg.getD "delimited overflow") } rfl rfl rfl (-1)
    · next hfits =>
      rw [asUnsigned_lt_iff hmleft (by omega), Int.not_lt] at hfits
      refine inBounds_decodeTag (k := 0) hlen hreads (Int.le_refl 0) (show 0 ≤ c1.ptr by omega) (Int.natCast_nonneg _) ?_ ?_
      · show c1.ptr + (c1.val.i64.toNat : ℤ) ≤ dlen
        omega
      · show (2 * (0 : ℕ) : ℤ) ≤ c1.ptr
        omega

/-- **The decoder stays in bounds and comes to an end**: in every iteration over an input of `dlen` bytes. -/
theorem bounds_of_run (hlen : dlen < 2 ^ 31) (h : PbRun mem dlen k p x) : InBounds dlen k p x := by
  induction h with
  | begin f =>
    exact inBounds_decodeTag (k := 0) hlen (fun r hr => absurd hr List.not_mem_nil) (Int.le_refl 0) (Int.le_refl 0)
      (Int.natCast_nonneg dlen) (by simp) (by simp)
  | beginDelimited f => exact inBounds_beginDelimited hlen f
  | next _ hok ih =>
    have hptr := ih.ptr
    exact inBounds_decodeTag hlen ih.reads (by omega) (Int.le_refl _) ih.left ih.fin (ih.taken hok)

/-- The fields `58 07` and `58 09`. -/
def twoFields : ℤ → UInt8 := fun i => [0x58, 7, 0x58, 9].getD i.toNat 0

theorem bounds_of_run_two : InBounds 4 2 2 (((blank 0).pbBegin twoFields 4).2.pbNext twoFields) := by
  have hrun : PbRun twoFields 4 2 ((blank 0).pbBegin twoFields 4).2.ptr
    (((blank 0).pbBegin twoFields 4).2.pbNext twoFields) :=
    .next (.begin (blank 0)) (by decide)
  have hptr : ((blank 0).pbBegin twoFields 4).2.ptr = 2 := by decide
  rw [hptr] at hrun
  exact bounds_of_run (by decide) hrun

/-! ### The bytes that are left -/

/-- The bytes that are left. -/
structure Ahead (mem : ℤ → UInt8) (c : PbCursor) (bs : Bytes) : Prop where
  left : c.left = bs.length
  bytes : window mem c.ptr bs.length = bs

variable {bs rest : Bytes}

@[simp] theorem length_window (mem : ℤ → UInt8) : ∀ (p : ℤ) (k : ℕ), (window mem p k).length = k
  | _, 0 => rfl
  | p, k + 1 => by rw [window, List.length_cons, length_window mem (p + 1) k]

theorem window_add (mem : ℤ → UInt8) : ∀ (p : ℤ) (k l : ℕ), window mem p (k + l) = window mem p k ++ window mem (p + k) l
  | p, 0, l => by simp [window]
  | p, k + 1, l => by
    have hstart : p + 1 + k = p + (k + 1 : ℕ) := by omega
    rw [Nat.add_right_comm, window, window_add mem (p + 1) k l, window, hstart, List.cons_append]

theorem ahead_window (h : 0 ≤ c.left) : Ahead mem c (window mem c.ptr c.left.toNat) :=
  ⟨by rw [length_window, Int.toNat_of_nonneg h], by rw [length_window]⟩

/-- Going on leaves the rest. -/
theorem Ahead.advance (h : Ahead mem c (bs ++ rest)) :
    Ahead mem (c.advance bs.length) rest ∧ window mem c.ptr bs.length = bs := by
  have hbytes := h.bytes
  have hleft := h.left
  rw [List.length_append] at hleft
  rw [List.length_append, window_add] at hbytes
  obtain ⟨hbs, hrest⟩ := List.append_inj hbytes (length_window ..)
  exact ⟨⟨by rw [left_advance]; omega, hrest⟩, hbs⟩

/-- Only `ptr` and `left` matter. -/
theorem Ahead.of_eq (h : Ahead mem c bs) (hptr : c'.ptr = c.ptr) (hleft : c'.left = c.left) : Ahead mem c' bs :=
  ⟨hleft.trans h.left, by rw [hptr]; exact h.bytes⟩

/-- A cursor that has gone on, with all else as it was. -/
structure Carries (c c' : PbCursor) : Prop where
  fin : c'.ptr + c'.left = c.ptr + c.left
  errmsg : c'.errmsg = c.errmsg
  eom : c'.eom = c.eom
  tag : c'.tag = c.tag

/-- `pb_get_byte` reads the first byte. -/
theorem getByte_ahead {b : UInt8} (h : Ahead mem c (b :: bs)) :
    ∃ c', c.getByte mem = (.ok b, c') ∧ Ahead mem c' bs ∧ c'.ptr = c.ptr + 1 ∧ c'.val = c.val ∧ Carries c c' := by
  have hmem : mem c.ptr = b := (List.cons.inj h.bytes).1
  have hsome : ¬c.left < 1 := by
    rw [h.left, List.length_cons]
    omega
  refine ⟨{ c.advance 1 with reads := c.ptr :: c.reads }, by rw [getByte, if_neg hsome, hmem],
    (@Ahead.advance mem c [b] bs h).1.of_eq rfl rfl, rfl, rfl, ?_, rfl, rfl, rfl⟩
  simp only [ptr_advance, left_advance]
  omega

/-- How a function that fails on a byte string fails at a cursor. -/
structure FailsAs (c : PbCursor) (e : PbErr) (x : PbRet Unit) : Prop where
  ret : x.1 = .error e.ret
  errmsg : x.2.errmsg = some (c.errmsg.getD e.errmsg)
  eom : x.2.eom = c.eom
  left : x.2.left = e.rest.length

/-- What a function that decodes a value and leaves `rest` leaves at a cursor. -/
structure DecodesTo (mem : ℤ → UInt8) (c : PbCursor) (rest : Bytes) (x : PbRet Unit) : Prop extends Carries c x.2 where
  ret : x.1 = .ok ()
  ahead : Ahead mem x.2 rest

theorem carries_advance (c : PbCursor) (k : ℕ) : Carries c (c.advance k) := by
  refine ⟨?_, rfl, rfl, rfl⟩
  rw [ptr_advance, left_advance]
  omega

theorem Carries.trans (h : Carries c c') (h' : Carries c' c'') : Carries c c'' :=
  ⟨h'.fin.trans h.fin, h'.errmsg.trans h.errmsg, h'.eom.trans h.eom, h'.tag.trans h.tag⟩

theorem Carries.failsAs {e : PbErr} (h : Carries c c') (h' : FailsAs c' e x) : FailsAs c e x :=
  ⟨h'.ret, by rw [h'.errmsg, h.errmsg], h'.eom.trans h.eom, h'.left⟩

theorem Carries.decodesTo (h : Carries c c') (h' : DecodesTo mem c' rest x) : DecodesTo mem c rest x :=
  ⟨h.trans h'.toCarries, h'.ret, h'.ahead⟩

/-- The loop of `pb_decode_varint` reads what is left. -/
theorem decodeVarintLoop_ahead : ∀ (turns bitpos : ℕ) (result : UInt64) {c : PbCursor} {bs : Bytes}, Ahead mem c bs →
    71 ≤ bitpos + 7 * turns →
    match pbDecodeVarintLoop bitpos result bs with
    | .ok (v, rest) => DecodesTo mem c rest (decodeVarintLoop mem turns bitpos result c) ∧
      (decodeVarintLoop mem turns bitpos result c).2.val = { c.val with i64 := v }
    | .error e => FailsAs c e (decodeVarintLoop mem turns bitpos result c) := by
  intro turns
  induction turns with
  | zero =>
    intro bitpos result c bs h hturns
    have hover : 64 ≤ bitpos := by omega
    cases bs with
    | nil => simpa [pbDecodeVarintLoop, hover, decodeVarintLoop] using ⟨rfl, rfl, rfl, h.left⟩
    | cons b bs => simpa [pbDecodeVarintLoop, hover, decodeVarintLoop] using ⟨rfl, rfl, rfl, h.left⟩
  | succ turns ih =>
    intro bitpos result c bs h hturns
    by_cases hover : 64 ≤ bitpos
    · cases bs with
      | nil => simpa [pbDecodeVarintLoop, hover, decodeVarintLoop] using ⟨rfl, rfl, rfl, h.left⟩
      | cons b bs => simpa [pbDecodeVarintLoop, hover, decodeVarintLoop] using ⟨rfl, rfl, rfl, h.left⟩
    cases bs with
    | nil =>
      have hnone : c.left < 1 := by rw [h.left]; decide
      simpa [pbDecodeVarintLoop, hover, decodeVarintLoop, getByte, hnone] using ⟨rfl, rfl, rfl, h.left⟩
    | cons b bs =>
      obtain ⟨c1, hbyte, hahead, -, hval, hcarries⟩ := getByte_ahead h
      rw [decodeVarintLoop, if_neg hover, hbyte, pbDecodeVarintLoop, if_neg hover]
      simp only
      by_cases hmore : b &&& 0x80 ≠ 0
      · rw [if_pos hmore, if_pos hmore]
        have hih := ih (bitpos + 7) (result ||| (b &&& 0x7F).toUInt64 <<< UInt64.ofNat bitpos) hahead (by omega)
        split at hih
        · exact ⟨hcarries.decodesTo hih.1, by rw [hih.2, hval]⟩
        · exact hcarries.failsAs hih
      · rw [if_neg hmore, if_neg hmore]
        exact ⟨⟨⟨hcarries.fin, hcarries.errmsg, hcarries.eom, hcarries.tag⟩, rfl, hahead.of_eq rfl rfl⟩, by rw [hval]⟩

/-- `pb_decode_varint` reads what is left. -/
theorem decodeVarint_ahead (h : Ahead mem c bs) :
    match pbDecodeVarint bs with
    | .ok (v, rest) => DecodesTo mem c rest (c.decodeVarint mem) ∧ (c.decodeVarint mem).2.val = { c.val with i64 := v }
    | .error e => FailsAs c e (c.decodeVarint mem) :=
  decodeVarintLoop_ahead 11 0 0 h (by decide)

/-- The value of a type at the front of a byte string, with what the union holds before. -/
def pbDecodeVal (old : UInt64) : PbType → Bytes → Except PbErr (PbVal × Bytes)
  | .varint, bs => (pbDecodeVarint bs).map fun p => ({ i64 := p.1 }, p.2)
  | .fixed64, bs => pbDecodeFixed64 bs
  | .string, bs => pbDecodeString bs
  | .fixed32, bs => pbDecodeFixed32 old bs

theorem pbDecodeTag_eq (bs : Bytes) : pbDecodeTag bs =
    match pbDecodeVarint bs with
    | .error e => .error ⟨-1, e.errmsg, e.rest.isEmpty⟩
    | .ok (v, rest) =>
      if v = 0 then .error ⟨-2, "0-terminated msg", true⟩
      else match PbType.ofCode (v.toUInt32 &&& 7) with
        | some type => match pbDecodeVal v type rest with
          | .error e => .error e.stop
          | .ok (val, rest) => .ok (⟨(v >>> 3).toUInt32, type, val⟩, rest)
        | none => .error ⟨-3, "invalid type", false⟩ := by
  unfold pbDecodeTag
  cases hword : pbDecodeVarint bs with
  | error e => rfl
  | ok p =>
    obtain ⟨v, rest⟩ := p
    simp only
    split
    · rfl
    cases htype : PbType.ofCode (v.toUInt32 &&& 7) with
    | none => rfl
    | some type =>
      cases type with
      | varint =>
        simp only [pbDecodeVal]
        cases pbDecodeVarint rest <;> rfl
      | fixed64 => rfl
      | string => rfl
      | fixed32 => rfl

/-- The union of a cursor holds a value of a type. -/
def Holds (mem : ℤ → UInt8) (type : PbType) (u : PbUnion) (val : PbVal) : Prop :=
  if type = .string then u.len.toNat = val.str.length ∧ window mem u.data val.str.length = val.str else u.i64 = val.i64

theorem getWord_ahead (k : ℕ) (h : Ahead mem c bs) :
    match pbGetLe k bs with
    | .ok (n, rest) => n < 256 ^ k ∧ ∃ c', c.getWord mem k = (.ok n, c') ∧ c'.val = c.val ∧
      DecodesTo mem c rest (.ok (), c')
    | .error e => ∃ c', c.getWord mem k = (.error e.ret, c') ∧ FailsAs c e (.error e.ret, c') := by
  have hleft := h.left
  unfold pbGetLe getWord
  by_cases hshort : bs.length < k
  · rw [if_pos hshort, if_pos (by omega)]
    exact ⟨_, rfl, rfl, rfl, rfl, hleft⟩
  · rw [if_neg hshort, if_neg (by omega)]
    have hsplit : bs.take k ++ bs.drop k = bs := List.take_append_drop k bs
    have hk : (bs.take k).length = k := List.length_take_of_le (by omega)
    obtain ⟨hahead, hwindow⟩ := @Ahead.advance mem c (bs.take k) (bs.drop k) (hsplit.symm ▸ h)
    rw [hk] at hahead hwindow
    have hlt : ofLeBytes (bs.take k) < 256 ^ k := by
      have := ofLeBytes_lt (bs.take k)
      rwa [hk] at this
    exact ⟨hlt, _, Prod.ext (congrArg (fun s => Except.ok (ofLeBytes s)) hwindow) rfl, rfl,
      ⟨(carries_advance c k).fin, rfl, rfl, rfl⟩, rfl, hahead.of_eq rfl rfl⟩

/-- Decoding a value reads what is left. -/
theorem decodeVal_ahead (type : PbType) (h : Ahead mem c bs) (hlt : bs.length < 2 ^ 31) :
    match pbDecodeVal c.val.i64 type bs with
    | .ok (val, rest) => DecodesTo mem c rest (c.decodeVal mem type) ∧ Holds mem type (c.decodeVal mem type).2.val val
    | .error e => FailsAs c e (c.decodeVal mem type) := by
  cases type with
  | varint =>
    have hvarint := decodeVarint_ahead h
    rw [pbDecodeVal, decodeVal]
    cases hdec : pbDecodeVarint bs with
    | error e =>
      rw [hdec] at hvarint
      exact hvarint
    | ok p =>
      rw [hdec] at hvarint
      refine ⟨hvarint.1, ?_⟩
      rw [hvarint.2]
      rfl
  | fixed64 =>
    have hword := getWord_ahead 8 h
    rw [pbDecodeVal, decodeVal, pbDecodeFixed64, decodeFixed64]
    cases hdec : pbGetLe 8 bs with
    | error e =>
      rw [hdec] at hword
      obtain ⟨c', hc', hfail⟩ := hword
      rw [hc']
      exact hfail
    | ok p =>
      rw [hdec] at hword
      obtain ⟨hn, c', hc', hval, hto⟩ := hword
      rw [hc']
      exact ⟨⟨⟨hto.fin, hto.errmsg, hto.eom, hto.tag⟩, rfl, hto.ahead.of_eq rfl rfl⟩, rfl⟩
  | string =>
    have hvarint := decodeVarint_ahead h
    rw [pbDecodeVal, decodeVal, pbDecodeString, decodeString]
    cases hdec : pbDecodeVarint bs with
    | error e =>
      rw [hdec] at hvarint
      generalize c.decodeVarint mem = x at hvarint
      obtain ⟨ret, c1⟩ := x
      obtain rfl := hvarint.ret
      exact ⟨rfl, hvarint.errmsg, hvarint.eom, hvarint.left⟩
    | ok p =>
      obtain ⟨v, rest⟩ := p
      rw [hdec] at hvarint
      generalize c.decodeVarint mem = x at hvarint
      obtain ⟨ret, c1⟩ := x
      obtain ⟨hto, hval⟩ := hvarint
      obtain rfl := hto.ret
      have hleft : c1.left = rest.length := hto.ahead.left
      have hrest : rest.length < 2 ^ 31 := by
        have := length_of_pbDecodeVarintLoop hdec
        omega
      have hv : c1.val.i64 = v := by
        have hval' : c1.val = _ := hval
        rw [hval']
      simp only
      rw [hv]
      by_cases hshort : rest.length < v.toNat
      · rw [if_pos hshort, if_pos ((asUnsigned_lt_iff (by omega) (by omega) _).mpr (by omega))]
        exact ⟨rfl, congrArg (fun m : Option String => some (m.getD "string overflow")) hto.errmsg, hto.eom, hleft⟩
      · rw [if_neg hshort, if_neg fun hlt => hshort (by have := (asUnsigned_lt_iff (by omega) (by omega) _).mp hlt; omega)]
        have hsz : v.toUInt32.toNat = v.toNat := by
          rw [UInt64.toNat_toUInt32]
          omega
        have htake : (rest.take v.toNat).length = v.toNat := List.length_take_of_le (by omega)
        obtain ⟨hahead, hwindow⟩ := @Ahead.advance mem _ (rest.take v.toNat) (rest.drop v.toNat)
          ((List.take_append_drop v.toNat rest).symm ▸ hto.ahead)
        rw [htake] at hahead hwindow
        rw [hsz]
        have hcarries := hto.toCarries.trans (carries_advance c1 v.toNat)
        refine ⟨⟨⟨hcarries.fin, hcarries.errmsg, hcarries.eom, hcarries.tag⟩, rfl, hahead.of_eq rfl rfl⟩, ?_, ?_⟩
        · show (c1.val.setLow v.toUInt32).len.toNat = (rest.take v.toNat).length
          rw [len_setLow, hsz, htake]
        · show window mem c1.ptr (rest.take v.toNat).length = rest.take v.toNat
          rw [htake, hwindow]
  | fixed32 =>
    have hword := getWord_ahead 4 h
    rw [pbDecodeVal, decodeVal, pbDecodeFixed32, decodeFixed32]
    cases hdec : pbGetLe 4 bs with
    | error e =>
      rw [hdec] at hword
      obtain ⟨c', hc', hfail⟩ := hword
      rw [hc']
      exact hfail
    | ok p =>
      rw [hdec] at hword
      obtain ⟨hn, c', hc', hval, hto⟩ := hword
      rw [hc']
      refine ⟨⟨⟨hto.fin, hto.errmsg, hto.eom, hto.tag⟩, rfl, hto.ahead.of_eq rfl rfl⟩, ?_⟩
      have hlow : (UInt32.ofNat p.1).toUInt64 = UInt64.ofNat p.1 := by
        rw [← UInt64.toNat_inj, UInt32.toNat_toUInt64, UInt32.toNat_ofNat', UInt64.toNat_ofNat']
        omega
      show c'.val.i64 &&& 0xFFFFFFFF00000000 ||| (UInt32.ofNat p.1).toUInt64 = _
      rw [hval, hlow]

/-- **The decoder in memory is the decoder of byte strings**: `pb_decode_tag` at a cursor finds the field at the front of
the bytes that are left, or ends the iteration in the same way. -/
theorem decodeTag_ahead (h : Ahead mem c bs) (hlt : bs.length < 2 ^ 31) :
    match pbDecodeTag bs with
    | .ok (f, rest) => (c.decodeTag mem).1 = .ok () ∧ Ahead mem (c.decodeTag mem).2 rest ∧
      (c.decodeTag mem).2.ptr + (c.decodeTag mem).2.left = c.ptr + c.left ∧ (c.decodeTag mem).2.tag = f.tag ∧
      Holds mem f.type (c.decodeTag mem).2.val f.val
    | .error stop => (c.decodeTag mem).1 = .error stop.ret ∧
      (c.decodeTag mem).2.errmsg = some (c.errmsg.getD stop.errmsg) ∧ (c.decodeTag mem).2.eom = (c.eom || stop.eom) := by
  have hvarint := decodeVarint_ahead h
  rw [pbDecodeTag_eq, decodeTag]
  cases hdec : pbDecodeVarint bs with
  | error e =>
    rw [hdec] at hvarint
    generalize c.decodeVarint mem = x at hvarint
    obtain ⟨ret, c1⟩ := x
    obtain rfl := hvarint.ret
    have hleft : c1.left = e.rest.length := hvarint.left
    have hmsg : c1.errmsg = some (c.errmsg.getD e.errmsg) := hvarint.errmsg
    have heom : c1.eom = c.eom := hvarint.eom
    cases hrest : e.rest with
    | nil =>
      rw [hrest] at hleft
      simp [hleft, hmsg, hrest]
    | cons b bs =>
      have hne : c1.left ≠ 0 := by
        rw [hleft, hrest, List.length_cons]
        omega
      simp [hne, hmsg, heom, hrest]
  | ok p =>
    obtain ⟨v, rest⟩ := p
    rw [hdec] at hvarint
    generalize c.decodeVarint mem = x at hvarint
    obtain ⟨ret, c1⟩ := x
    obtain ⟨hto, hval⟩ := hvarint
    obtain rfl := hto.ret
    have hmsg : c1.errmsg = c.errmsg := hto.errmsg
    have heom : c1.eom = c.eom := hto.eom
    have hv : c1.val.i64 = v := by
      have hval' : c1.val = _ := hval
      rw [hval']
    have hrest : rest.length < 2 ^ 31 := by
      have := length_of_pbDecodeVarintLoop hdec
      omega
    simp only
    rw [hv]
    by_cases hzero : v = 0
    · rw [if_pos hzero, if_pos hzero]
      refine ⟨rfl, ?_, (Bool.or_true _).symm⟩
      show some (c1.errmsg.getD _) = _
      rw [hmsg]
    rw [if_neg hzero, if_neg hzero, show c1.val.i32 = v.toUInt32 by rw [PbUnion.i32, hv]]
    set c2 : PbCursor := { c1 with tag := (v >>> 3).toUInt32, type := v.toUInt32 &&& 7 } with hc2
    have hahead : Ahead mem c2 rest := hto.ahead.of_eq rfl rfl
    cases htype : PbType.ofCode (v.toUInt32 &&& 7) with
    | none =>
      refine ⟨rfl, ?_, heom.trans (Bool.or_false _).symm⟩
      show some (c1.errmsg.getD _) = _
      rw [hmsg]
    | some type =>
      have hdecode := decodeVal_ahead type hahead hrest
      rw [show c2.val.i64 = v from hv] at hdecode
      simp only
      cases hdec2 : pbDecodeVal v type rest with
      | error e =>
        rw [hdec2] at hdecode
        refine ⟨hdecode.ret, ?_, ?_⟩
        · rw [hdecode.errmsg, show c2.errmsg = c1.errmsg from rfl, hmsg]
          rfl
        · rw [hdecode.eom, show c2.eom = c1.eom from rfl, heom, PbErr.stop, Bool.or_false]
      | ok q =>
        obtain ⟨val, rest'⟩ := q
        rw [hdec2] at hdecode
        obtain ⟨hto', hholds⟩ := hdecode
        exact ⟨hto'.ret, hto'.ahead, hto'.fin.trans hto.fin, hto'.tag, hholds⟩

/-! ### Skipping -/

/-- Skipping a value agrees with decoding it. -/
structure SkipAgrees (mem : ℤ → UInt8) (c : PbCursor) (type : PbType) : Prop where
  /-- They succeed together. -/
  ret : (c.skipField mem type).1.isOk = (c.decodeVal mem type).1.isOk
  /-- On success they leave `ptr` at the same place. -/
  ptr : (c.skipField mem type).1.isOk = true → (c.skipField mem type).2.ptr = (c.decodeVal mem type).2.ptr
  /-- On success they leave as much. -/
  left : (c.skipField mem type).1.isOk = true → (c.skipField mem type).2.left = (c.decodeVal mem type).2.left

/-- When they do: there is a whole varint, and no length of 33 bits or more whose low 32 bits fit. -/
def Skippable (mem : ℤ → UInt8) (c : PbCursor) : PbType → Prop
  | .varint => ∃ bs rest, window mem c.ptr c.left.toNat = bs ++ rest ∧ IsVarint bs
  | .string => ∀ bs rest, window mem c.ptr c.left.toNat = bs ++ rest → IsVarint bs → 2 ^ 32 ≤ (vintValue bs).toNat →
    rest.length < (vintValue bs).toNat % 2 ^ 32
  | .fixed32 | .fixed64 => True

/-- `pb_skip_varint` goes over a varint. -/
theorem skipVarintLoop_ahead {v : Bytes} (hv : IsNumeral v) : ∀ {turns : ℕ} {c : PbCursor}, Ahead mem c (v ++ rest) →
    v.length ≤ turns → (skipVarintLoop mem turns c).2.ptr = c.ptr + v.length ∧
      (skipVarintLoop mem turns c).2.left = rest.length := by
  induction hv with
  | @last b hb =>
    intro turns c h hturns
    obtain ⟨c1, hbyte, hahead, hptr, -⟩ := getByte_ahead h
    obtain ⟨turns, rfl⟩ : ∃ t, turns = t + 1 := ⟨turns - 1, by simp only [List.length_singleton] at hturns; omega⟩
    have hlast : ¬b &&& 0x80 ≠ 0 := not_not_intro ((and_128_eq_zero_iff b).mpr hb)
    rw [skipVarintLoop, hbyte]
    simp only
    rw [if_neg hlast]
    exact ⟨hptr, hahead.left⟩
  | @more b bs hb hbs ih =>
    intro turns c h hturns
    obtain ⟨c1, hbyte, hahead, hptr, -⟩ := getByte_ahead h
    obtain ⟨turns, rfl⟩ : ∃ t, turns = t + 1 := ⟨turns - 1, by simp only [List.length_cons] at hturns; omega⟩
    have hmore : b &&& 0x80 ≠ 0 := by
      rw [ne_eq, and_128_eq_zero_iff]
      omega
    rw [skipVarintLoop, hbyte]
    simp only
    rw [if_pos hmore]
    obtain ⟨hptr', hleft'⟩ := ih hahead (by simpa using hturns)
    refine ⟨?_, hleft'⟩
    rw [hptr', hptr, List.length_cons]
    omega

theorem isOk_skipVarintLoop : ∀ (turns : ℕ) (c : PbCursor), (skipVarintLoop mem turns c).1.isOk = true := by
  intro turns
  induction turns with
  | zero => exact fun _ => rfl
  | succ turns ih =>
    intro c
    unfold skipVarintLoop
    split
    · rfl
    · split
      · exact ih _
      · rfl

theorem skipAgrees_word {type : PbType} (k : ℕ) (hskip : c.skipField mem type = c.skipWord k)
    (hok : (c.decodeVal mem type).1.isOk = (c.getWord mem k).1.isOk)
    (hleave : (c.decodeVal mem type).2.ptr = (c.getWord mem k).2.ptr ∧
      (c.decodeVal mem type).2.left = (c.getWord mem k).2.left) : SkipAgrees mem c type := by
  have hsame : (c.skipWord k).1.isOk = (c.getWord mem k).1.isOk ∧ (c.skipWord k).2.ptr = (c.getWord mem k).2.ptr ∧
      (c.skipWord k).2.left = (c.getWord mem k).2.left := by
    unfold skipWord getWord
    split <;> exact ⟨rfl, rfl, rfl⟩
  exact ⟨by rw [hskip, hok, hsame.1], fun _ => by rw [hskip, hleave.1, hsame.2.1],
    fun _ => by rw [hskip, hleave.2, hsame.2.2]⟩

theorem skipAgrees_fixed64 : SkipAgrees mem c .fixed64 := by
  refine skipAgrees_word 8 rfl ?_ ?_ <;>
  · rw [decodeVal, decodeFixed64]
    generalize c.getWord mem 8 = x
    obtain ⟨e | n, c1⟩ := x <;> first | rfl | exact ⟨rfl, rfl⟩

theorem skipAgrees_fixed32 : SkipAgrees mem c .fixed32 := by
  refine skipAgrees_word 4 rfl ?_ ?_ <;>
  · rw [decodeVal, decodeFixed32]
    generalize c.getWord mem 4 = x
    obtain ⟨e | n, c1⟩ := x <;> first | rfl | exact ⟨rfl, rfl⟩

/-- A varint is skipped like it is decoded when there is one: skipping never fails. -/
theorem skipAgrees_varint_iff (h : 0 ≤ c.left) : SkipAgrees mem c .varint ↔ Skippable mem c .varint := by
  have hahead := @ahead_window mem c h
  have hdecode := decodeVarint_ahead hahead
  have hok : (c.skipField mem .varint).1.isOk = true := isOk_skipVarintLoop _ _
  cases hdec : pbDecodeVarint (window mem c.ptr c.left.toNat) with
  | error e =>
    rw [hdec] at hdecode
    constructor
    · intro hagrees
      have hret := hagrees.ret
      rw [hok, show c.decodeVal mem .varint = c.decodeVarint mem from rfl, hdecode.ret] at hret
      cases hret
    · rintro ⟨bs, rest, hsplit, hbs⟩
      rw [hsplit, pbDecodeVarint_of_isVarint hbs] at hdec
      cases hdec
  | ok p =>
    obtain ⟨v, rest⟩ := p
    rw [hdec] at hdecode
    obtain ⟨bs, hsplit, hbs, rfl⟩ := isVarint_of_pbDecodeVarint hdec
    rw [hsplit] at hahead
    have hlen : c.left = bs.length + rest.length := by
      rw [hahead.left, List.length_append]
      omega
    have hturns : bs.length ≤ c.left.toNat + 1 := by omega
    obtain ⟨hptr, hleft⟩ := skipVarintLoop_ahead hbs.1 hahead hturns
    have hfin := hdecode.1.fin
    have hrest := hdecode.1.ahead.left
    refine ⟨fun _ => ⟨bs, rest, hsplit, hbs⟩, fun _ => ⟨?_, fun _ => ?_, fun _ => ?_⟩⟩
    · rw [hok, decodeVal, hdecode.1.ret]
      rfl
    · rw [skipField, skipVarint, hptr, decodeVal]
      omega
    · rw [skipField, skipVarint, hleft, decodeVal, hrest]

/-- A string whose length has been read: when skipping and when decoding succeed, and what they leave. -/
theorem string_ahead {v : UInt64} {c1 : PbCursor} (hread : c.decodeVarint mem = (.ok (), c1)) (hv : c1.val.i64 = v)
    (h : 0 ≤ c1.left) (hlt : c1.left < 2 ^ 31) :
    ((c.skipField mem .string).1.isOk = true ↔ v.toNat % 2 ^ 32 ≤ c1.left) ∧
    ((c.decodeVal mem .string).1.isOk = true ↔ v.toNat ≤ c1.left) ∧
    ((c.skipField mem .string).1.isOk = true → (c.skipField mem .string).2.ptr = c1.ptr + (v.toNat % 2 ^ 32 : ℕ) ∧
      (c.skipField mem .string).2.left = c1.left - (v.toNat % 2 ^ 32 : ℕ)) ∧
    ((c.decodeVal mem .string).1.isOk = true → (c.decodeVal mem .string).2.ptr = c1.ptr + (v.toNat % 2 ^ 32 : ℕ) ∧
      (c.decodeVal mem .string).2.left = c1.left - (v.toNat % 2 ^ 32 : ℕ)) := by
  have hlow : v.toUInt32.toNat = v.toNat % 2 ^ 32 := UInt64.toNat_toUInt32 v
  rw [skipField, decodeVal, skipString, decodeString, hread]
  simp only
  rw [PbUnion.i32, hv, hlow, get]
  refine ⟨?_, ?_, ?_, ?_⟩
  · split
    · next hshort =>
      rw [asUnsigned_lt_iff h hlt] at hshort
      exact iff_of_false nofun (by omega)
    · next hfits =>
      rw [asUnsigned_lt_iff h hlt] at hfits
      exact iff_of_true rfl (by omega)
  · split
    · next hshort =>
      rw [asUnsigned_lt_iff h hlt] at hshort
      exact iff_of_false nofun (by omega)
    · next hfits =>
      rw [asUnsigned_lt_iff h hlt] at hfits
      exact iff_of_true rfl (by omega)
  · split
    · exact nofun
    · exact fun _ => ⟨rfl, rfl⟩
  · split
    · exact nofun
    · exact fun _ => ⟨rfl, rfl⟩

/-- A string is skipped like it is decoded unless its length has more than 32 bits and the low ones fit. -/
theorem skipAgrees_string_iff (h : 0 ≤ c.left) (hlt : c.left < 2 ^ 31) :
    SkipAgrees mem c .string ↔ Skippable mem c .string := by
  have hdecode := decodeVarint_ahead (@ahead_window mem c h)
  cases hdec : pbDecodeVarint (window mem c.ptr c.left.toNat) with
  | error e =>
    rw [hdec] at hdecode
    have hskip : (c.skipField mem .string).1.isOk = false ∧ (c.decodeVal mem .string).1.isOk = false := by
      rw [skipField, decodeVal, skipString, decodeString]
      generalize c.decodeVarint mem = x at hdecode
      obtain ⟨ret, c1⟩ := x
      obtain rfl := hdecode.ret
      exact ⟨rfl, rfl⟩
    refine iff_of_true ⟨hskip.1.trans hskip.2.symm, ?_, ?_⟩ fun bs rest hsplit hbs => ?_
    · rw [hskip.1]
      exact nofun
    · rw [hskip.1]
      exact nofun
    · rw [hsplit, pbDecodeVarint_of_isVarint hbs] at hdec
      cases hdec
  | ok p =>
    obtain ⟨v, rest⟩ := p
    rw [hdec] at hdecode
    obtain ⟨hto, hval⟩ := hdecode
    have hread : c.decodeVarint mem = (.ok (), (c.decodeVarint mem).2) := Prod.ext hto.ret rfl
    have hleft := hto.ahead.left
    have hrest := length_of_pbDecodeVarintLoop hdec
    rw [length_window] at hrest
    obtain ⟨hskip, hdecodes, hskipped, hdecoded⟩ :=
      string_ahead hread (v := v) (by rw [hval]) (by omega) (by omega)
    have hcond : Skippable mem c .string ↔ (2 ^ 32 ≤ v.toNat → rest.length < v.toNat % 2 ^ 32) := by
      constructor
      · intro hskippable
        obtain ⟨bs, hsplit, hbs, rfl⟩ := isVarint_of_pbDecodeVarint hdec
        exact hskippable bs rest hsplit hbs
      · intro hsmall bs rest' hsplit hbs
        rw [hsplit, pbDecodeVarint_of_isVarint hbs] at hdec
        cases hdec
        exact hsmall
    rw [hcond]
    constructor
    · intro hagrees hbig
      have hret := hagrees.ret
      rw [Bool.eq_iff_iff, hskip, hdecodes, hleft] at hret
      omega
    · intro hsmall
      have hret : (c.skipField mem .string).1.isOk = (c.decodeVal mem .string).1.isOk := by
        rw [Bool.eq_iff_iff, hskip, hdecodes, hleft]
        omega
      exact ⟨hret, fun hok => by rw [(hskipped hok).1, (hdecoded (hret ▸ hok)).1],
        fun hok => by rw [(hskipped hok).2, (hdecoded (hret ▸ hok)).2]⟩

/-- **Skipping a field agrees with decoding it** exactly when there is a varint to be skipped, or a length that is not
cut to 32 bits. -/
theorem skipAgrees_iff (type : PbType) (h : 0 ≤ c.left) (hlt : c.left < 2 ^ 31) :
    SkipAgrees mem c type ↔ Skippable mem c type := by
  cases type with
  | varint => exact skipAgrees_varint_iff h
  | fixed64 => exact iff_of_true skipAgrees_fixed64 trivial
  | string => exact skipAgrees_string_iff h hlt
  | fixed32 => exact iff_of_true skipAgrees_fixed32 trivial

theorem skipAgrees_iff_two : SkipAgrees (fun _ => 0x80) (blank 2) .string ↔ Skippable (fun _ => 0x80) (blank 2) .string :=
  skipAgrees_iff .string (by decide) (by decide)

/-- At the end of the buffer there is no varint to be decoded, and skipping one succeeds. -/
theorem not_skipAgrees : ¬∀ (mem : ℤ → UInt8) (c : PbCursor) (type : PbType), 0 ≤ c.left → c.left < 2 ^ 31 →
    SkipAgrees mem c type := by
  intro h
  have hret := (h (fun _ => 0) (blank 0) .varint (by decide) (by decide)).ret
  revert hret
  decide

end PbCursor

end KnvProto
