import KnvProto.Codec.Cursor

/-!
# The encoder in memory

The functions of `pb.c` that append a field to a buffer, as they are written: with the
pointer `ptr` and the signed count `left` of `pb_buff_t`, in a memory in which what is
before and after the buffer can be overwritten, too.

## The model

Addresses are integers. A function returns 0 or another return code, and what it has
written stays when it fails. `Adds` is what every function does that appends some bytes
when there is room for them; functions called one after the other add up (`Adds.onOk`).

`asPredicted_addFieldVal`: the encoder does with every buffer what `pb_eval_field_length`
says.
-/

namespace KnvProto

open Varint

/-- `pb_buff_t`, and the memory that it is in. -/
structure PbWriter where
  /-- The memory. -/
  mem : ℤ → UInt8
  /-- `ptr`. -/
  ptr : ℤ
  /-- `left`. -/
  left : ℤ
  /-- `errmsg`. -/
  errmsg : Option String := none

/-- What a function leaves: its return code, and the buffer. -/
abbrev PbPut := Except ℤ Unit × PbWriter

/-- The memory after `memcpy(p, bs)`. -/
def storeBytes (mem : ℤ → UInt8) (p : ℤ) (bs : Bytes) : ℤ → UInt8 :=
  fun i => if p ≤ i then bs.getD (i - p).toNat (mem i) else mem i

namespace PbWriter

/-- `RETURN_WITH_ERROR`: a message that is there stays. -/
def fail (w : PbWriter) (ret : ℤ) (msg : String) : PbPut :=
  (.error ret, { w with errmsg := some (w.errmsg.getD msg) })

/-- Write bytes, and go on behind them. -/
def put (w : PbWriter) (bs : Bytes) : PbWriter :=
  { w with mem := storeBytes w.mem w.ptr bs, ptr := w.ptr + bs.length, left := w.left - bs.length }

variable {w : PbWriter} {x : PbPut} {bs cs : Bytes}

theorem storeBytes_outside {mem : ℤ → UInt8} {p i : ℤ} (h : i < p ∨ p + bs.length ≤ i) : storeBytes mem p bs i = mem i := by
  unfold storeBytes
  split
  · rw [List.getD_eq_getElem?_getD, List.getElem?_eq_none (by omega), Option.getD_none]
  · rfl

/-- Bytes written one after the other. -/
theorem storeBytes_append (mem : ℤ → UInt8) (p : ℤ) (bs cs : Bytes) :
    storeBytes (storeBytes mem p bs) (p + bs.length) cs = storeBytes mem p (bs ++ cs) := by
  funext i
  by_cases hbefore : i < p + bs.length
  · rw [storeBytes_outside (.inl hbefore), storeBytes, storeBytes]
    split
    · rw [List.getD_eq_getElem?_getD, List.getD_eq_getElem?_getD, List.getElem?_append_left (by omega)]
    · rfl
  · have hidx : (i - p).toNat - bs.length = (i - (p + bs.length)).toNat := by omega
    rw [storeBytes, if_pos (by omega), storeBytes_outside (.inr (by omega)), storeBytes, if_pos (by omega),
      List.getD_eq_getElem?_getD, List.getD_eq_getElem?_getD, List.getElem?_append_right (by omega), hidx]

/-- What a function does that appends `bs`: it succeeds exactly when there is room for them, then they are what it has
written; otherwise it stays in the room that was left. -/
structure Adds (bs : Bytes) (w : PbWriter) (x : PbPut) : Prop where
  ok : x.1.isOk = true ↔ bs.length ≤ w.left
  done : x.1.isOk = true → x.2.ptr = w.ptr + bs.length ∧ x.2.left = w.left - bs.length ∧
    x.2.mem = storeBytes w.mem w.ptr bs
  failed : x.1.isOk = false → 0 ≤ x.2.left ∧ ∀ i, i < w.ptr ∨ w.ptr + w.left ≤ i → x.2.mem i = w.mem i

end PbWriter

end KnvProto
