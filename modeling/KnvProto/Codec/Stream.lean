import KnvProto.Library.Framing
import KnvProto.Codec.RoundTrip

/-!
# Streams of fields

What the codec does with whole streams: fields that are written one after the
other are read back (`pbScan_addAll`); a field that was read may be written again
(`reencode_iff`); and an iteration ends with `eom` (`eom_iff`).

## The model

`IsField` is the grammar of one field: a tag word that is not zero, of a wire type
that is used, and the value the type asks for. Varints have at most ten bytes, not
always the fewest, and keep the low 64 bits of their number. The decoder takes
exactly the fields of this grammar (`parses_field`), so that where an iteration
ends is a matter of the bytes alone.
-/

namespace KnvProto

open Varint Framing

/-! ### Varints -/

/-- A varint of the wire. -/
def IsVarint (bs : Bytes) : Prop := IsNumeral bs ∧ bs.length ≤ 10

/-- The 64 bits that a varint keeps of its number. -/
def vintValue (bs : Bytes) : UInt64 := UInt64.ofNat (numeral bs)

/-- A byte of the loop with its high bit set, which is not the tenth. -/
theorem toNat_varintStep_more (byte : UInt8) {bitpos : ℕ} {result : UInt64} (hpos : bitpos + 7 < 64)
    (hres : result.toNat < 2 ^ bitpos) :
    (result ||| (byte &&& 0x7F).toUInt64 <<< UInt64.ofNat bitpos).toNat =
        result.toNat + byte.toNat % 128 * 2 ^ bitpos ∧
      result.toNat + byte.toNat % 128 * 2 ^ bitpos < 2 ^ (bitpos + 7) := by
  have h7 : 2 ^ (bitpos + 7) = 128 * 2 ^ bitpos := by rw [Nat.pow_add, Nat.mul_comm]
  have hle : byte.toNat % 128 * 2 ^ bitpos ≤ 127 * 2 ^ bitpos := Nat.mul_le_mul_right _ (by omega)
  have hbig : 2 ^ (bitpos + 7) ≤ 2 ^ 63 := Nat.pow_le_pow_right (by decide) (by omega)
  exact ⟨toNat_varintStep byte (by omega) hres (by omega), by omega⟩

/-- The last byte of the loop: the bits above the 64th are lost. -/
theorem varintStep_last {byte : UInt8} {bitpos : ℕ} {result : UInt64} (hpos : bitpos < 64)
    (hres : result.toNat < 2 ^ bitpos) :
    result ||| (byte &&& 0x7F).toUInt64 <<< UInt64.ofNat bitpos =
      UInt64.ofNat (result.toNat + byte.toNat % 128 * 2 ^ bitpos) := by
  have hshift : (UInt64.ofNat bitpos).toNat % 64 = bitpos := by
    rw [UInt64.toNat_ofNat']
    omega
  have hsplit : 2 ^ 64 = 2 ^ (64 - bitpos) * 2 ^ bitpos := by
    rw [← Nat.pow_add]
    congr 1
    omega
  have hmod : byte.toNat % 128 * 2 ^ bitpos % 2 ^ 64 = byte.toNat % 128 % 2 ^ (64 - bitpos) * 2 ^ bitpos := by
    rw [hsplit, Nat.mul_mod_mul_right]
  have hlt : byte.toNat % 128 % 2 ^ (64 - bitpos) * 2 ^ bitpos + 2 ^ bitpos ≤ 2 ^ 64 := by
    have := Nat.mod_lt (byte.toNat % 128) (Nat.two_pow_pos (64 - bitpos))
    rw [hsplit, ← Nat.succ_mul]
    exact Nat.mul_le_mul_right _ this
  have hsum : (result.toNat + byte.toNat % 128 * 2 ^ bitpos) % 2 ^ 64 =
      result.toNat + byte.toNat % 128 % 2 ^ (64 - bitpos) * 2 ^ bitpos := by
    rw [← Nat.add_mod_mod, hmod]
    exact Nat.mod_eq_of_lt (by omega)
  rw [← UInt64.toNat_inj, UInt64.toNat_or, UInt64.toNat_shiftLeft, UInt8.toNat_toUInt64, toNat_and_127, hshift,
    Nat.shiftLeft_eq, hmod, or_shiftLeft_eq_add hres, UInt64.toNat_ofNat', hsum]

/-- The loop takes a numeral whose last byte it reaches. -/
theorem pbDecodeVarintLoop_of_numeral {bs : Bytes} (h : IsNumeral bs) (rest : Bytes) : ∀ {bitpos : ℕ} {result : UInt64},
    bitpos + 7 * bs.length < 71 → result.toNat < 2 ^ bitpos →
    pbDecodeVarintLoop bitpos result (bs ++ rest) =
      .ok (UInt64.ofNat (result.toNat + numeral bs * 2 ^ bitpos), rest) := by
  induction h with
  | @last b hb =>
    intro bitpos result hlen hres
    simp only [List.length_singleton] at hlen
    have hlast : b &&& 0x80 = 0 := (and_128_eq_zero_iff b).mpr hb
    rw [List.singleton_append, pbDecodeVarintLoop, if_neg (by omega), varintStep_last (by omega) hres]
    simp [hlast, numeral]
  | @more b bs hb hbs ih =>
    intro bitpos result hlen hres
    have hpos : 0 < bs.length := List.length_pos_iff.mpr hbs.ne_nil
    simp only [List.length_cons] at hlen
    have hmore : ¬b &&& 0x80 = 0 := by
      rw [and_128_eq_zero_iff]
      omega
    obtain ⟨hstep, hlt⟩ := toNat_varintStep_more b (show bitpos + 7 < 64 by omega) hres
    have h7 : 2 ^ (bitpos + 7) = 128 * 2 ^ bitpos := by rw [Nat.pow_add, Nat.mul_comm]
    rw [List.cons_append, pbDecodeVarintLoop, if_neg (by omega)]
    simp only [hmore, ne_eq, not_false_eq_true, if_true]
    rw [ih (by omega) (by rw [hstep]; exact hlt), hstep, numeral, h7]
    congr 3
    rw [Nat.add_mul, Nat.add_assoc, Nat.mul_comm 128 (numeral bs), Nat.mul_assoc]

/-- What the loop takes is a numeral. -/
theorem numeral_of_pbDecodeVarintLoop {s : Bytes} : ∀ {bitpos : ℕ} {result v : UInt64} {rest : Bytes},
    pbDecodeVarintLoop bitpos result s = .ok (v, rest) →
    ∃ bs, s = bs ++ rest ∧ IsNumeral bs ∧ bitpos + 7 * bs.length < 71 := by
  induction s with
  | nil =>
    intro bitpos result v rest h
    rw [pbDecodeVarintLoop] at h
    split at h <;> cases h
  | cons b s ih =>
    intro bitpos result v rest h
    rw [pbDecodeVarintLoop] at h
    split at h
    · cases h
    next hpos =>
    simp only at h
    split at h
    · next hmore =>
      obtain ⟨bs, rfl, hbs, hlen⟩ := ih h
      refine ⟨b :: bs, rfl, .more ?_ hbs, by simp only [List.length_cons]; omega⟩
      rw [ne_eq, and_128_eq_zero_iff] at hmore
      omega
    · next hlast =>
      cases h
      refine ⟨[b], rfl, .last ?_, by simp only [List.length_singleton]; omega⟩
      rwa [ne_eq, not_not, and_128_eq_zero_iff] at hlast

/-- The loop fails with nothing left exactly when it runs off the end of the bytes. -/
theorem rest_of_pbDecodeVarintLoop {s : Bytes} : ∀ {bitpos : ℕ} {result : UInt64} {e : PbErr}, bitpos < 71 →
    pbDecodeVarintLoop bitpos result s = .error e →
    (e.rest = [] ↔ (∀ b ∈ s, 128 ≤ b.toNat) ∧ bitpos + 7 * s.length < 71) := by
  induction s with
  | nil =>
    intro bitpos result e hpos h
    rw [pbDecodeVarintLoop] at h
    split at h <;> cases h <;> simpa using hpos
  | cons b s ih =>
    intro bitpos result e hpos h
    rw [pbDecodeVarintLoop] at h
    split at h
    · next hover =>
      cases h
      simp only [List.length_cons]
      exact ⟨fun hnil => absurd hnil (List.cons_ne_nil _ _), fun hlen => by omega⟩
    simp only at h
    split at h
    · next hmore =>
      rw [ne_eq, and_128_eq_zero_iff, Nat.not_lt] at hmore
      rw [ih (by omega) h, List.length_cons, List.forall_mem_cons]
      constructor
      · rintro ⟨hall, hlen⟩
        exact ⟨⟨hmore, hall⟩, by omega⟩
      · rintro ⟨⟨-, hall⟩, hlen⟩
        exact ⟨hall, by omega⟩
    · cases h

theorem pbDecodeVarint_of_isVarint {bs : Bytes} (h : IsVarint bs) (rest : Bytes) :
    pbDecodeVarint (bs ++ rest) = .ok (vintValue bs, rest) := by
  have hlen := h.2
  rw [pbDecodeVarint, pbDecodeVarintLoop_of_numeral h.1 rest (by omega) (by decide)]
  simp [vintValue]

theorem isVarint_of_pbDecodeVarint {s rest : Bytes} {v : UInt64} (h : pbDecodeVarint s = .ok (v, rest)) :
    ∃ bs, s = bs ++ rest ∧ IsVarint bs ∧ v = vintValue bs := by
  obtain ⟨bs, rfl, hbs, hlen⟩ := numeral_of_pbDecodeVarintLoop h
  have hv : IsVarint bs := ⟨hbs, by omega⟩
  refine ⟨bs, rfl, hv, ?_⟩
  rw [pbDecodeVarint_of_isVarint hv] at h
  cases h
  rfl

/-! ### Fields -/

/-- A tag word of a wire type. -/
structure IsTagWord (type : PbType) (bs : Bytes) : Prop where
  varint : IsVarint bs
  nonzero : vintValue bs ≠ 0
  /-- The low three bits are the wire type. -/
  code : (vintValue bs).toNat % 8 = type.code.toNat

/-- The grammar of one complete field. -/
inductive IsField : Bytes → Prop
  /-- A varint. -/
  | varint {t v : Bytes} : IsTagWord .varint t → IsVarint v → IsField (t ++ v)
  /-- Eight bytes. -/
  | fixed64 {t v : Bytes} : IsTagWord .fixed64 t → v.length = 8 → IsField (t ++ v)
  /-- A length, and a string of that length. -/
  | string {t l s : Bytes} : IsTagWord .string t → IsVarint l → s.length = (vintValue l).toNat → IsField (t ++ (l ++ s))
  /-- Four bytes. -/
  | fixed32 {t v : Bytes} : IsTagWord .fixed32 t → v.length = 4 → IsField (t ++ v)

theorem IsVarint.ne_nil {bs : Bytes} (h : IsVarint bs) : bs ≠ [] := h.1.ne_nil

theorem IsField.ne_nil {bs : Bytes} (h : IsField bs) : bs ≠ [] := by
  cases h with
  | varint ht _ => simp [ht.varint.ne_nil]
  | fixed64 ht _ => simp [ht.varint.ne_nil]
  | string ht _ _ => simp [ht.varint.ne_nil]
  | fixed32 ht _ => simp [ht.varint.ne_nil]

theorem ofCode_eq_some_iff {v : UInt64} {type : PbType} :
    PbType.ofCode (v.toUInt32 &&& 7) = some type ↔ v.toNat % 8 = type.code.toNat := by
  have hmask : (v.toUInt32 &&& 7).toNat = v.toNat % 8 := by
    have h7 : ∀ x : ℕ, x &&& 7 = x % 8 := fun x => Nat.and_two_pow_sub_one_eq_mod x 3
    rw [UInt32.toNat_and, UInt64.toNat_toUInt32]
    simp only [UInt32.reduceToNat, h7]
    omega
  have hcode : PbType.ofCode (v.toUInt32 &&& 7) = some type ↔ v.toUInt32 &&& 7 = type.code := by
    unfold PbType.ofCode
    constructor
    · intro h
      split at h
      · next hc => cases h; exact hc
      split at h
      · next hc => cases h; exact hc
      split at h
      · next hc => cases h; exact hc
      split at h
      · next hc => cases h; exact hc
      · cases h
    · intro h
      rw [h]
      exact ofCode_code type
  rw [hcode, ← hmask, UInt32.toNat_inj]

theorem pbGetLe_append {k : ℕ} {v : Bytes} (h : v.length = k) (rest : Bytes) :
    pbGetLe k (v ++ rest) = .ok (ofLeBytes v, rest) := by
  rw [pbGetLe, if_neg (by rw [List.length_append]; omega), List.take_left' h, List.drop_left' h]

theorem of_pbGetLe {k n : ℕ} {s rest : Bytes} (h : pbGetLe k s = .ok (n, rest)) : ∃ v, s = v ++ rest ∧ v.length = k := by
  rw [pbGetLe] at h
  split at h
  · cases h
  · next hlen =>
    cases h
    exact ⟨s.take k, (List.take_append_drop k s).symm, by rw [List.length_take]; omega⟩

theorem pbDecodeString_append {l s : Bytes} (hl : IsVarint l) (hs : s.length = (vintValue l).toNat) (rest : Bytes) :
    pbDecodeString (l ++ (s ++ rest)) = .ok ({ str := s }, rest) := by
  rw [pbDecodeString, pbDecodeVarint_of_isVarint hl]
  simp only
  rw [if_neg (by rw [List.length_append]; omega), List.take_left' hs, List.drop_left' hs]

theorem of_pbDecodeString {s rest : Bytes} {val : PbVal} (h : pbDecodeString s = .ok (val, rest)) :
    ∃ l, s = l ++ (val.str ++ rest) ∧ IsVarint l ∧ val.str.length = (vintValue l).toNat := by
  rw [pbDecodeString] at h
  split at h
  · cases h
  next sz tail hsz =>
  obtain ⟨l, rfl, hl, rfl⟩ := isVarint_of_pbDecodeVarint hsz
  split at h
  · cases h
  · next hlen =>
    cases h
    exact ⟨l, by rw [List.take_append_drop], hl, by rw [List.length_take]; omega⟩

/-- **The decoder takes exactly the fields of the grammar.** -/
theorem parses_field : Parses pbDecodeTag IsField where
  sound := by
    intro s f rest h
    rw [pbDecodeTag] at h
    split at h
    · cases h
    next v tail hv =>
    obtain ⟨t, rfl, ht, rfl⟩ := isVarint_of_pbDecodeVarint hv
    split at h
    · cases h
    next hne =>
    simp only at h
    split at h
    · next hcode =>
      have htag : IsTagWord .varint t := ⟨ht, hne, ofCode_eq_some_iff.mp hcode⟩
      split at h
      · cases h
      · next hval =>
        cases h
        obtain ⟨v, rfl, hv, -⟩ := isVarint_of_pbDecodeVarint hval
        exact ⟨t ++ v, by rw [List.append_assoc], .varint htag hv⟩
    · next hcode =>
      have htag : IsTagWord .fixed64 t := ⟨ht, hne, ofCode_eq_some_iff.mp hcode⟩
      split at h
      · cases h
      · next hval =>
        cases h
        simp only [pbDecodeFixed64, bind, Except.bind] at hval
        split at hval
        · cases hval
        · next hget =>
          cases hval
          obtain ⟨v, rfl, hlen⟩ := of_pbGetLe hget
          exact ⟨t ++ v, by rw [List.append_assoc], .fixed64 htag hlen⟩
    · next hcode =>
      have htag : IsTagWord .string t := ⟨ht, hne, ofCode_eq_some_iff.mp hcode⟩
      split at h
      · cases h
      · next val _ hval =>
        cases h
        obtain ⟨l, rfl, hl, hs⟩ := of_pbDecodeString hval
        exact ⟨t ++ (l ++ val.str), by simp only [List.append_assoc], .string htag hl hs⟩
    · next hcode =>
      have htag : IsTagWord .fixed32 t := ⟨ht, hne, ofCode_eq_some_iff.mp hcode⟩
      split at h
      · cases h
      · next hval =>
        cases h
        simp only [pbDecodeFixed32, bind, Except.bind] at hval
        split at hval
        · cases hval
        · next hget =>
          cases hval
          obtain ⟨v, rfl, hlen⟩ := of_pbGetLe hget
          exact ⟨t ++ v, by rw [List.append_assoc], .fixed32 htag hlen⟩
    · cases h
  complete := by
    intro f rest h
    have key : ∀ {type : PbType} {t : Bytes} (tail : Bytes), IsTagWord type t →
        pbDecodeVarint (t ++ tail) = .ok (vintValue t, tail) ∧ vintValue t ≠ 0 ∧
          PbType.ofCode ((vintValue t).toUInt32 &&& 7) = some type :=
      fun tail ht => ⟨pbDecodeVarint_of_isVarint ht.varint tail, ht.nonzero, ofCode_eq_some_iff.mpr ht.code⟩
    cases h with
    | @varint t v ht hv =>
      obtain ⟨hdec, hne, hcode⟩ := key (v ++ rest) ht
      rw [List.append_assoc, pbDecodeTag, hdec]
      simp only [hne, if_false, hcode, pbDecodeVarint_of_isVarint hv]
      exact ⟨_, rfl⟩
    | @fixed64 t v ht hv =>
      obtain ⟨hdec, hne, hcode⟩ := key (v ++ rest) ht
      rw [List.append_assoc, pbDecodeTag, hdec]
      simp only [hne, if_false, hcode, pbDecodeFixed64, pbGetLe_append hv, bind, Except.bind]
      exact ⟨_, rfl⟩
    | @string t l s ht hl hs =>
      obtain ⟨hdec, hne, hcode⟩ := key (l ++ (s ++ rest)) ht
      rw [List.append_assoc, List.append_assoc, pbDecodeTag, hdec]
      simp only [hne, if_false, hcode, pbDecodeString_append hl hs]
      exact ⟨_, rfl⟩
    | @fixed32 t v ht hv =>
      obtain ⟨hdec, hne, hcode⟩ := key (v ++ rest) ht
      rw [List.append_assoc, pbDecodeTag, hdec]
      simp only [hne, if_false, hcode, pbDecodeFixed32, pbGetLe_append hv, bind, Except.bind]
      exact ⟨_, rfl⟩

/-! ### The end of an iteration -/

/-- The bytes of a tag word that has no end: at most ten, all with the high bit set. -/
def Unended (s : Bytes) : Prop := (∀ b ∈ s, 128 ≤ b.toNat) ∧ s.length ≤ 10

/-- A varint that stands for zero. -/
def IsZero (z : Bytes) : Prop := IsVarint z ∧ vintValue z = 0

/-- A varint has an end. -/
theorem not_unended {s tail : Bytes} {v : UInt64} (h : pbDecodeVarint s = .ok (v, tail)) : ¬Unended s := by
  rintro ⟨hall, -⟩
  obtain ⟨bs, rfl, ⟨hbs, -⟩, -⟩ := isVarint_of_pbDecodeVarint h
  clear h
  induction hbs with
  | last hb => exact absurd (hall _ (List.mem_append_left _ (List.mem_singleton_self _))) (by omega)
  | more _ _ ih => exact ih fun b hb => hall b (List.mem_cons_of_mem _ hb)

/-- Where the decoder stops, it sets `eom` for nothing, for a zero, and for a tag word that has no end. -/
theorem eom_of_stop {s : Bytes} {stop : PbStop} (h : pbDecodeTag s = .error stop) :
    stop.eom = true ↔ Unended s ∨ ∃ z rest, s = z ++ rest ∧ IsZero z := by
  rw [pbDecodeTag] at h
  split at h
  · next e he =>
    cases h
    have hrest := rest_of_pbDecodeVarintLoop (by omega) he
    rw [List.isEmpty_iff, hrest]
    have hlen : 0 + 7 * s.length < 71 ↔ s.length ≤ 10 := by omega
    rw [hlen]
    refine ⟨Or.inl, fun hor => hor.resolve_right ?_⟩
    rintro ⟨z, rest, rfl, hz, -⟩
    rw [pbDecodeVarint_of_isVarint hz] at he
    cases he
  next v tail hv =>
  obtain ⟨t, rfl, ht, rfl⟩ := isVarint_of_pbDecodeVarint hv
  have hzero : (∃ z rest, t ++ tail = z ++ rest ∧ IsZero z) → vintValue t = 0 := by
    rintro ⟨z, rest, heq, hz, hz0⟩
    rw [heq, pbDecodeVarint_of_isVarint hz] at hv
    have hsame : vintValue z = vintValue t := congrArg Prod.fst (Except.ok.inj hv)
    rw [← hsame, hz0]
  split at h
  · next h0 =>
    cases h
    exact ⟨fun _ => .inr ⟨t, tail, rfl, ht, h0⟩, fun _ => rfl⟩
  next hne =>
  have hfalse : stop.eom = false := by
    simp only at h
    split at h
    all_goals
      first
        | (split at h <;> cases h <;> rfl)
        | (cases h; rfl)
  rw [hfalse]
  refine ⟨fun hf => (by cases hf), fun hor => ?_⟩
  rcases hor with hun | hz
  · exact absurd hun (not_unended hv)
  · exact absurd (hzero hz) hne

/-- What an iteration makes of fields before a tail is what it makes of the tail. -/
theorem eom_of_splits {s tail : Bytes} (h : Splits IsField s tail) : (pbScan s).2 = (pbScan tail).2 := by
  obtain ⟨fs, hfs, rfl⟩ := h
  induction fs with
  | nil => rfl
  | cons f fs ih =>
    obtain ⟨x, hx⟩ := parses_field.complete (fs.flatten ++ tail) (hfs f (List.mem_cons_self ..))
    rw [List.flatten_cons, List.append_assoc, pbScan_of_ok hx]
    exact ih fun g hg => hfs g (List.mem_cons_of_mem _ hg)

/-- An end of either kind is where the decoder stops. -/
theorem stops_of_end {tail : Bytes} (h : Unended tail ∨ ∃ z rest, tail = z ++ rest ∧ IsZero z) :
    ∃ stop, pbDecodeTag tail = .error stop := by
  cases hdec : pbDecodeTag tail with
  | error stop => exact ⟨stop, rfl⟩
  | ok r =>
    obtain ⟨f, rest⟩ := r
    exfalso
    rw [pbDecodeTag] at hdec
    split at hdec
    · cases hdec
    next v tl hv =>
    rcases h with hun | ⟨z, rest', rfl, hz, hz0⟩
    · exact not_unended hv hun
    · rw [pbDecodeVarint_of_isVarint hz] at hv
      cases hv
      rw [if_pos hz0] at hdec
      cases hdec

/-- **When an iteration ends with `eom`**: the bytes are fields, and then nothing, or a zero and anything, or a tag
word that has no end. -/
theorem eom_iff (s : Bytes) : (pbScan s).2 = true ↔
    ∃ tail, Splits IsField s tail ∧ (Unended tail ∨ ∃ z rest, tail = z ++ rest ∧ IsZero z) := by
  obtain ⟨tail, stop, hsplit, hstop⟩ := exists_stop parses_field (fun _ => IsField.ne_nil) s
  have heom : (pbScan s).2 = stop.eom := by rw [eom_of_splits hsplit, pbScan_of_error hstop]
  rw [heom, eom_of_stop hstop]
  constructor
  · exact fun h => ⟨tail, hsplit, h⟩
  · rintro ⟨tail', hsplit', h⟩
    obtain ⟨stop', hstop'⟩ := stops_of_end h
    rwa [hsplit.tail_unique parses_field hstop hstop' hsplit']

/-- A complete message: fields, and then nothing, or a zero byte and anything. -/
def Complete (s : Bytes) : Prop := ∃ tail, Splits IsField s tail ∧ (tail = [] ∨ ∃ rest, tail = 0 :: rest)

/-- After its complete fields, the message has a tag word without an end, or a zero of more than one byte. -/
def EndsAmiss (s : Bytes) : Prop :=
  ∃ tail, Splits IsField s tail ∧ (tail ≠ [] ∧ Unended tail ∨ ∃ z rest, tail = z ++ rest ∧ IsZero z ∧ 1 < z.length)

/-- A zero of one byte is a zero byte. -/
theorem isZero_singleton {b : UInt8} : IsZero [b] ↔ b = 0 := by
  constructor
  · rintro ⟨⟨hb, -⟩, h0⟩
    cases hb with
    | last hb =>
      rw [vintValue, numeral, numeral, eq_zero_iff_toNat, UInt64.toNat_ofNat'] at h0
      rw [← UInt8.toNat_inj]
      show b.toNat = 0
      omega
    | more _ hnil => exact absurd rfl hnil.ne_nil
  · rintro rfl
    exact ⟨⟨.last (by decide), by decide⟩, by decide⟩

/-- A byte string that begins with a varint of more than one byte begins with a high bit. -/
theorem IsVarint.head {z : Bytes} (h : IsVarint z) (hlen : 1 < z.length) : ∃ b t, z = b :: t ∧ 128 ≤ b.toNat := by
  obtain ⟨hz, -⟩ := h
  cases hz with
  | last _ => simp at hlen
  | more hb _ => exact ⟨_, _, rfl, hb⟩

/-- **The parser reports a clean end exactly for complete messages**, but for those that end amiss. -/
theorem eom_exact_iff (s : Bytes) : ((pbScan s).2 = true ↔ Complete s) ↔ ¬EndsAmiss s := by
  -- nothing, and a zero byte, are where the decoder stops
  have hstop : ∀ tail : Bytes, (tail = [] ∨ ∃ rest, tail = 0 :: rest) → ∃ stop, pbDecodeTag tail = .error stop := by
    rintro tail (rfl | ⟨rest, rfl⟩)
    · exact ⟨_, rfl⟩
    · exact ⟨_, rfl⟩
  constructor
  · rintro hiff ⟨tail, hsplit, hamiss⟩
    have heom : (pbScan s).2 = true := by
      rw [eom_iff]
      refine ⟨tail, hsplit, ?_⟩
      rcases hamiss with ⟨-, hun⟩ | ⟨z, rest, htail, hz, -⟩
      · exact .inl hun
      · exact .inr ⟨z, rest, htail, hz⟩
    obtain ⟨tail', hsplit', hend⟩ := hiff.mp heom
    obtain ⟨stop', hstop'⟩ := hstop tail' hend
    -- the message stops in one place only
    have hhead : tail ≠ [] ∧ ∀ rest, tail ≠ 0 :: rest := by
      rcases hamiss with ⟨hne, hall, -⟩ | ⟨z, rest, rfl, ⟨hz, -⟩, hlen⟩
      · refine ⟨hne, ?_⟩
        rintro rest rfl
        exact absurd (hall 0 (List.mem_cons_self ..)) (by decide)
      · obtain ⟨b, t, rfl, hb⟩ := hz.head hlen
        refine ⟨by simp, fun rest' heq => ?_⟩
        cases heq
        exact absurd hb (by decide)
    have hstops : ∃ stop, pbDecodeTag tail = .error stop := by
      rcases hamiss with ⟨-, hun⟩ | ⟨z, rest, htail, hz, -⟩
      · exact stops_of_end (.inl hun)
      · exact stops_of_end (.inr ⟨z, rest, htail, hz⟩)
    obtain ⟨stop, hdec⟩ := hstops
    have heq := hsplit.tail_unique parses_field hdec hstop' hsplit'
    rcases hend with hnil | ⟨rest, hzero⟩
    · exact hhead.1 (heq.trans hnil)
    · exact hhead.2 rest (heq.trans hzero)
  · intro hamiss
    rw [eom_iff]
    constructor
    · rintro ⟨tail, hsplit, hun | ⟨z, rest, rfl, hz⟩⟩
      · refine ⟨tail, hsplit, .inl ?_⟩
        by_contra hne
        exact hamiss ⟨tail, hsplit, .inl ⟨hne, hun⟩⟩
      · refine ⟨z ++ rest, hsplit, .inr ?_⟩
        cases z with
        | nil => exact absurd rfl hz.1.ne_nil
        | cons b t =>
          cases t with
          | nil => exact ⟨rest, by rw [isZero_singleton.mp hz]; rfl⟩
          | cons c t => exact (hamiss ⟨_, hsplit, .inr ⟨_, rest, rfl, hz, by simp⟩⟩).elim
    · rintro ⟨tail, hsplit, rfl | ⟨rest, rfl⟩⟩
      · exact ⟨[], hsplit, .inl ⟨by simp, by simp⟩⟩
      · exact ⟨0 :: rest, hsplit, .inr ⟨[0], rest, rfl, isZero_singleton.mpr rfl⟩⟩

/-- A message that is cut in the middle of a tag word ends with `eom`. -/
theorem not_eom_exact : ¬∀ s, (pbScan s).2 = true ↔ Complete s := by
  intro h
  obtain ⟨tail, ⟨fs, hfs, heq⟩, hend⟩ := (h [0x58, 0x01, 0x80]).mp (by decide)
  have hamiss : EndsAmiss [0x58, 0x01, 0x80] := by
    refine ⟨[0x80], ⟨[[0x58] ++ [0x01]], ?_, rfl⟩, .inl ⟨by simp, by simp, by simp⟩⟩
    rintro f hf
    rw [List.mem_singleton.mp hf]
    have hbyte : ∀ b : UInt8, b.toNat < 128 → IsVarint [b] := fun b hb => ⟨.last hb, by simp⟩
    exact .varint ⟨hbyte _ (by decide), by decide, by decide⟩ (hbyte _ (by decide))
  exact (eom_exact_iff _).mp (h _) hamiss

/-! ### Writing a stream -/

/-- `pb_add_field` for one field after the other. -/
def pbAddAll (b : PbBuff) (fs : List PbField) : Except PbFull PbBuff := fs.foldlM pbAddField b

/-- The predicted length of a stream. -/
def pbEvalAll (fs : List PbField) : ℕ := (fs.map fun f => pbEvalFieldLength f.tag f.type f.val).sum

theorem pbEvalAll_eq (fs : List PbField) : pbEvalAll fs = (encodeAll fs).length := by
  induction fs with
  | nil => rfl
  | cons f fs ih =>
    rw [encodeAll_cons, List.length_append, ← ih, ← pbEvalFieldLength_eq]
    rfl

/-- A stream that there is room for is written field by field. -/
theorem pbAddAll_of_le {fs : List PbField} : ∀ {b : PbBuff}, (encodeAll fs).length ≤ b.left →
    pbAddAll b fs = .ok ⟨b.out ++ encodeAll fs, b.left - (encodeAll fs).length⟩ := by
  induction fs with
  | nil =>
    intro b _
    rw [encodeAll_nil, List.append_nil]
    rfl
  | cons f fs ih =>
    intro b h
    rw [encodeAll_cons, List.length_append] at h
    have hhead : pbAddField b f = .ok ⟨b.out ++ f.encode, b.left - f.encode.length⟩ :=
      pbAddFieldVal_of_le (show f.encode.length ≤ b.left by omega)
    have htail := ih (b := ⟨b.out ++ f.encode, b.left - f.encode.length⟩) (by simp only; omega)
    rw [pbAddAll, List.foldlM_cons, hhead]
    change pbAddAll _ fs = _
    rw [htail, encodeAll_cons, List.length_append, List.append_assoc, Nat.sub_sub]

/-- A field's string is part of its encoding. -/
theorem length_norm_le (f : PbField) : f.norm.val.str.length ≤ f.encode.length := by
  obtain ⟨tag, type, val⟩ := f
  cases type with
  | string =>
    rw [encode_string, List.length_append]
    exact Nat.le_add_left ..
  | varint | fixed64 | fixed32 => exact Nat.zero_le _

/-- **The round trip of a stream.** Fields that are written into a buffer with room for them are read back in order,
and the iteration ends with `eom`. -/
theorem pbScan_addAll {fs : List PbField} {sz : ℕ} (htag : ∀ f ∈ fs, TagOk f.tag) (htotal : pbEvalAll fs < 2 ^ 31)
    (hroom : pbEvalAll fs ≤ sz) :
    ∃ b, pbAddAll (pbInitBuff sz) fs = .ok b ∧ (pbScan b.out).1.map Prod.fst = fs.map PbField.norm ∧
      (pbScan b.out).2 = true := by
  rw [pbEvalAll_eq] at htotal hroom
  have hok : ∀ f ∈ fs.map PbField.norm, f.Ok := by
    intro g hg
    obtain ⟨f, hf, rfl⟩ := List.mem_map.mp hg
    have hle : f.encode.length ≤ (encodeAll fs).length := by
      obtain ⟨l, r, rfl⟩ := List.append_of_mem hf
      rw [encodeAll_append, encodeAll_cons, List.length_append, List.length_append]
      omega
    have hstr := length_norm_le f
    exact ⟨htag f hf, by omega⟩
  refine ⟨_, pbAddAll_of_le hroom, ?_⟩
  change (pbScan ([] ++ encodeAll fs)).1.map Prod.fst = _ ∧ (pbScan ([] ++ encodeAll fs)).2 = true
  rw [List.nil_append, ← encodeAll_norm, pbScan_encodeAll hok]
  exact ⟨by simp [Function.comp_def, norm_norm], rfl⟩

/-- A stream of one field of each type. -/
theorem pbScan_addAll_each :
    ∃ b, pbAddAll (pbInitBuff 64) [⟨1, .varint, { i64 := 300 }⟩, ⟨2, .fixed64, { i64 := 7 }⟩,
        ⟨536870911, .string, { str := [0, 255] }⟩, ⟨16, .fixed32, { i64 := 9 }⟩] = .ok b ∧
      (pbScan b.out).1.map Prod.fst = [⟨1, .varint, { i64 := 300 }⟩, ⟨2, .fixed64, { i64 := 7 }⟩,
        ⟨536870911, .string, { str := [0, 255] }⟩, ⟨16, .fixed32, { i64 := 9 }⟩] ∧
      (pbScan b.out).2 = true :=
  @pbScan_addAll [⟨1, .varint, { i64 := 300 }⟩, ⟨2, .fixed64, { i64 := 7 }⟩, ⟨536870911, .string, { str := [0, 255] }⟩,
    ⟨16, .fixed32, { i64 := 9 }⟩] 64 (by decide) (by decide) (by decide)

/-! ### Writing a field again -/

/-- A string that was read has a length of 64 bits. -/
theorem length_lt_of_pbDecodeString {bs rest : Bytes} {val : PbVal} (h : pbDecodeString bs = .ok (val, rest)) :
    val.str.length < 2 ^ 64 := by
  rw [pbDecodeString] at h
  split at h
  · cases h
  next sz tail hsz =>
  split at h
  · cases h
  cases h
  have hlt := sz.toNat_lt
  rw [List.length_take]
  omega

/-- What the decoder reads after a tag word: a field whose tag the word holds. -/
theorem tag_of_pbDecodeTag {w : UInt64} {bs rest : Bytes} {g : PbField}
    (h : pbDecodeTag (pbVint w ++ bs) = .ok (g, rest)) : w ≠ 0 ∧ g.tag = (w >>> 3).toUInt32 := by
  rw [pbDecodeTag, pbDecodeVarint_pbVint] at h
  simp only at h
  split at h
  · cases h
  next hw =>
  refine ⟨hw, ?_⟩
  split at h
  case h_5 => cases h
  all_goals
    split at h
    · cases h
    · cases h
      rfl

/-- A string that was read has a length of 64 bits, whatever it was read from. -/
theorem length_lt_of_pbDecodeTag {bs rest : Bytes} {f : PbField} (h : pbDecodeTag bs = .ok (f, rest)) :
    f.val.str.length < 2 ^ 64 := by
  rw [pbDecodeTag] at h
  split at h
  · cases h
  split at h
  · cases h
  simp only at h
  split at h
  · split at h
    · cases h
    · cases h
      exact Nat.two_pow_pos 64
  · split at h
    · cases h
    next hn =>
    cases h
    simp only [pbDecodeFixed64, bind, Except.bind] at hn
    split at hn
    · cases hn
    · cases hn
      exact Nat.two_pow_pos 64
  · split at h
    · cases h
    next hn =>
    cases h
    exact length_lt_of_pbDecodeString hn
  · split at h
    · cases h
    next hn =>
    cases h
    simp only [pbDecodeFixed32, bind, Except.bind] at hn
    split at hn
    · cases hn
    · cases hn
      exact Nat.two_pow_pos 64
  · cases h

/-- The tag word is zero only for the varint of field number 0. -/
theorem pbTagWord_ne_zero_of {type : PbType} {tag : UInt32} (hlt : tag.toNat < 2 ^ 29)
    (h : tag ≠ 0 ∨ type ≠ .varint) : pbTagWord type tag ≠ 0 := by
  rw [Ne, eq_zero_iff_toNat, toNat_pbTagWord hlt]
  rcases h with htag | htype
  · have : tag.toNat ≠ 0 := fun h0 => htag (UInt32.toNat_inj.mp h0)
    omega
  · have : type.code.toNat ≠ 0 := by
      cases type with
      | varint => exact absurd rfl htype
      | fixed64 | string | fixed32 => decide
    omega

/-- **When a field that was read can be written again**: the encoder shifts the tag in 32 bits, so that the tag must
be below 2^29, and the field must not begin with the zero that ends a message. -/
theorem reencode_iff {bs rest : Bytes} {f : PbField} (h : pbDecodeTag bs = .ok (f, rest)) {sz : ℕ}
    (hroom : pbEvalFieldLength f.tag f.type f.val ≤ sz) :
    (∃ b g rest', pbAddField (pbInitBuff sz) f = .ok b ∧ pbDecodeTag b.out = .ok (g, rest') ∧ g.tag = f.tag ∧
        g.type = f.type ∧ g.val.norm g.type = f.val.norm f.type) ↔
      f.tag.toNat < 2 ^ 29 ∧ (f.tag ≠ 0 ∨ f.type ≠ .varint) := by
  rw [pbEvalFieldLength_eq] at hroom
  have hadd : pbAddField (pbInitBuff sz) f = .ok ⟨f.encode, sz - f.encode.length⟩ := pbAddFieldVal_of_le hroom
  constructor
  · rintro ⟨b, g, rest', hb, hdec, htag, -, -⟩
    rw [hadd] at hb
    cases hb
    obtain ⟨hword, hg⟩ := tag_of_pbDecodeTag hdec
    -- the word of 32 bits leaves 29 bits for the tag
    have hlt : f.tag.toNat < 2 ^ 29 := by
      rw [← htag, hg, pbTagWord, UInt64.toNat_toUInt32, UInt64.toNat_shiftRight, UInt32.toNat_toUInt64]
      have hle := (f.type.code ||| f.tag <<< 3).toNat_lt
      simp only [UInt64.reduceToNat, Nat.reduceMod, Nat.shiftRight_eq_div_pow, Nat.reducePow]
      omega
    refine ⟨hlt, ?_⟩
    by_contra hno
    rw [not_or, not_not, not_not] at hno
    exact hword (by rw [hno.1, hno.2]; decide)
  · rintro ⟨hlt, hne⟩
    have hdec := pbDecodeTag_encode_of_word hlt (pbTagWord_ne_zero_of hlt hne) (length_lt_of_pbDecodeTag h) []
    rw [List.append_nil] at hdec
    exact ⟨_, _, _, hadd, hdec, rfl, rfl, by rw [PbField.norm]; exact congrArg PbField.val (norm_norm f)⟩

/-- The field `58 01` is read and written again. -/
theorem reencode_iff_eleven :
    (∃ b g rest', pbAddField (pbInitBuff 16) ⟨11, .varint, { i64 := 1 }⟩ = .ok b ∧
        pbDecodeTag b.out = .ok (g, rest') ∧ g.tag = 11 ∧ g.type = .varint ∧
        g.val.norm g.type = PbVal.norm .varint { i64 := 1 }) ↔
      (11 : UInt32).toNat < 2 ^ 29 ∧ ((11 : UInt32) ≠ 0 ∨ PbType.varint ≠ .varint) :=
  @reencode_iff [0x58, 0x01] [] ⟨11, .varint, { i64 := 1 }⟩ rfl 16 (by decide)

/-- A varint field of tag 2^29 is written as the zero that ends a message. -/
theorem not_reencode : ¬∀ (bs rest : Bytes) (f : PbField), pbDecodeTag bs = .ok (f, rest) → ∀ sz,
    pbEvalFieldLength f.tag f.type f.val ≤ sz →
    ∃ b g rest', pbAddField (pbInitBuff sz) f = .ok b ∧ pbDecodeTag b.out = .ok (g, rest') ∧ g.tag = f.tag ∧
      g.type = f.type ∧ g.val.norm g.type = f.val.norm f.type := by
  intro h
  have hdec : pbDecodeTag [0x80, 0x80, 0x80, 0x80, 0x10, 0x01] = .ok (⟨536870912, .varint, { i64 := 1 }⟩, []) := rfl
  obtain ⟨b, g, rest', hb, hg, -⟩ := h _ _ _ hdec 16 (by decide)
  have hout : pbAddField (pbInitBuff 16) ⟨536870912, .varint, { i64 := 1 }⟩ = .ok ⟨[0, 1], 14⟩ := rfl
  rw [hout] at hb
  cases hb
  cases hg

end KnvProto
