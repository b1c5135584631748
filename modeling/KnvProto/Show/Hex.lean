import KnvProto.Codec.Writer

/-!
# Hexadecimal input

`str2bin` of `knv_show`: `hex_squeeze` moves the hexadecimal digits of a text to its front, in place, and
the pairs of what is then found there are decoded.

## The model

The memory is a function of the address, and a text is its characters, none of which is 0, with a 0 behind them.
`int` is `Int32`. A loop is given the number of turns that it may take, and has no result when they
are not enough. `strtol` is the documented one for base 16; of the two characters that it is given here the value
never overflows.

`hex_squeeze` ends the text where it has read to, which is where it ended before: behind the digits there still
is what stood there (`squeezed`), and `str2bin` decodes that, too. `decodes_iff` says when that shows.
-/

namespace KnvProto.Show

open PbWriter

/-! ### The C library -/

/-- `isxdigit`. -/
def isxdigit (c : UInt8) : Bool :=
  (48 ≤ c.toNat && c.toNat ≤ 57) || (65 ≤ c.toNat && c.toNat ≤ 70) || (97 ≤ c.toNat && c.toNat ≤ 102)

/-- `isspace`. -/
def isspace (c : UInt8) : Bool := c.toNat == 32 || (9 ≤ c.toNat && c.toNat ≤ 13)

/-- The value of a hexadecimal digit. -/
def digitValue (c : UInt8) : ℕ :=
  if c.toNat ≤ 57 then c.toNat - 48 else if c.toNat ≤ 70 then c.toNat - 55 else c.toNat - 87

/-- The digits that a text begins with, as a number. -/
def digits : ℕ → Bytes → ℕ
  | n, [] => n
  | n, c :: s => if isxdigit c then digits (16 * n + digitValue c) s else n

/-- The prefix `0x`, which `strtol` skips if a digit follows. -/
def skipPrefix : Bytes → Bytes
  | 48 :: x :: c :: s => if (x = 120 ∨ x = 88) ∧ isxdigit c then c :: s else 48 :: x :: c :: s
  | s => s

/-- `strtol(s, NULL, 16)`: blanks, a sign, the prefix and the digits. -/
def strtol (s : Bytes) : ℤ :=
  match s.dropWhile isspace with
  | 45 :: s => -(digits 0 (skipPrefix s) : ℤ)
  | 43 :: s => digits 0 (skipPrefix s)
  | s => digits 0 (skipPrefix s)

/-- `strlen`. -/
def strlen : ℕ → (ℤ → UInt8) → ℤ → Option ℕ
  | 0, _, _ => none
  | turns + 1, mem, p => if mem p = 0 then some 0 else (strlen turns mem (p + 1)).map (· + 1)

/-! ### `knv_show` -/

/-- The loop of `hex_squeeze`, and what follows it. -/
def hexSqueezeLoop : ℕ → (ℤ → UInt8) → ℤ → ℤ → Option (ℤ → UInt8)
  | 0, _, _, _ => none
  | turns + 1, mem, str, data =>
    if mem data = 0 then some (storeBytes mem data [0])
    else if isxdigit (mem data) then hexSqueezeLoop turns (storeBytes mem str [mem data]) (str + 1) (data + 1)
    else hexSqueezeLoop turns mem str (data + 1)

/-- `hex_squeeze`. -/
def hexSqueeze (turns : ℕ) (mem : ℤ → UInt8) (str : ℤ) : Option (ℤ → UInt8) := hexSqueezeLoop turns mem str str

/-- What `str2bin` does after `strlen`: what it returns, and the bytes of `sBinData` that it writes. -/
def decode (mem : ℤ → UInt8) (psAsciiData : ℤ) (iAsciiLength iBinSize : Int32) : Int32 × Bytes :=
  let iRealLength := if iAsciiLength / 2 > iBinSize then iBinSize else iAsciiLength / 2
  (iRealLength, (List.range iRealLength.toInt.toNat).map fun i =>
    UInt8.ofInt (strtol [mem (psAsciiData + (i * 2 : ℕ)), mem (psAsciiData + (i * 2 + 1 : ℕ))]))

/-- `str2bin`. -/
def str2bin (turns : ℕ) (mem : ℤ → UInt8) (psAsciiData : ℤ) (iBinSize : Int32) : Option (Int32 × Bytes) := do
  let mem ← hexSqueeze turns mem psAsciiData
  let len ← strlen turns mem psAsciiData
  return decode mem psAsciiData (Int32.ofNat len) iBinSize

/-- A text. -/
structure Text where
  /-- Its characters. -/
  chars : Bytes
  /-- None of them ends it. -/
  noNul : 0 ∉ chars

namespace Text

/-- The memory with a text at `p`. -/
def inMemory (t : Text) (mem : ℤ → UInt8) (p : ℤ) : ℤ → UInt8 := storeBytes mem p (t.chars ++ [0])

/-- The hexadecimal digits of a text. -/
def hexDigits (t : Text) : Bytes := t.chars.filter isxdigit

/-- What `hex_squeeze` makes of a text: its digits, and behind them what stood there. -/
def squeezed (t : Text) : Bytes := t.hexDigits ++ t.chars.drop t.hexDigits.length

end Text

/-- The bytes that pairs of digits stand for. -/
def pairs : Bytes → Bytes
  | a :: b :: s => UInt8.ofNat (16 * digitValue a + digitValue b) :: pairs s
  | _ => []

/-- What is expected of `str2bin`: it returns the smaller one of the capacity and half the number of digits, and has
written as many bytes, those that the pairs of digits stand for. -/
structure Decodes (t : Text) (iBinSize : Int32) (ret : Int32) (out : Bytes) : Prop where
  /-- What is returned. -/
  returned : ret.toInt = min iBinSize.toInt (t.hexDigits.length / 2 : ℕ)
  /-- What is written. -/
  written : out = (pairs t.hexDigits).take ret.toInt.toNat

/-! ### What is in memory -/

/-- The characters that are found from `p` on. -/
def Spells (mem : ℤ → UInt8) : ℤ → Bytes → Prop
  | _, [] => True
  | p, c :: s => mem p = c ∧ Spells mem (p + 1) s

variable {mem mem' : ℤ → UInt8} {p q : ℤ} {s s' : Bytes}

theorem Spells.congr : ∀ {s : Bytes} {p : ℤ}, Spells mem p s → (∀ i, p ≤ i → mem' i = mem i) → Spells mem' p s
  | [], _, _, _ => trivial
  | _ :: _, p, h, heq => ⟨(heq p (Int.le_refl p)).trans h.1, h.2.congr fun i hi => heq i (by omega)⟩

theorem spells_append : ∀ {s : Bytes} {p : ℤ}, Spells mem p (s ++ s') ↔ Spells mem p s ∧ Spells mem (p + s.length) s'
  | [], p => by simp [Spells]
  | c :: s, p => by
    have hlen : p + 1 + s.length = p + (c :: s).length := by simp only [List.length_cons]; omega
    rw [List.cons_append, Spells, Spells, spells_append, and_assoc, hlen]

/-- What has been stored is found. -/
theorem spells_storeBytes : ∀ {s : Bytes} {mem : ℤ → UInt8} {p : ℤ}, Spells (storeBytes mem p s) p s
  | [], _, _ => trivial
  | c :: s, mem, p => by
    have hsplit : storeBytes (storeBytes mem p [c]) (p + 1) s = storeBytes mem p (c :: s) :=
      storeBytes_append mem p [c] s
    rw [← hsplit]
    refine ⟨?_, spells_storeBytes⟩
    rw [storeBytes_outside (.inl (by omega))]
    simp [storeBytes]

/-- What is found at a place. -/
theorem Spells.get : ∀ {s : Bytes} {p : ℤ} (_ : Spells mem p s) (i : ℕ) (hi : i < s.length), mem (p + i) = s[i]
  | c :: s, p, h, 0, _ => by simpa using h.1
  | c :: s, p, h, i + 1, hi => by
    have hplace : p + (i + 1 : ℕ) = p + 1 + i := by omega
    rw [List.getElem_cons_succ, ← h.2.get i (Nat.lt_of_succ_lt_succ hi), hplace]

theorem storeBytes_same {c : UInt8} (h : mem p = c) : storeBytes mem p [c] = mem := by
  funext i
  by_cases hi : i < p ∨ p + ([c] : Bytes).length ≤ i
  · exact storeBytes_outside hi
  · obtain rfl : i = p := by simp only [List.length_singleton] at hi; omega
    simp [storeBytes, h]

theorem storeBytes_nil : storeBytes mem p [] = mem := by
  funext i
  exact storeBytes_outside (by simp only [List.length_nil]; omega)

/-! ### `hex_squeeze` -/

/-- The loop of `hex_squeeze` moves the digits to the front, and changes nothing else. -/
theorem hexSqueezeLoop_eq : ∀ {s : Bytes} {turns : ℕ} {mem : ℤ → UInt8} {str data : ℤ}, 0 ∉ s →
    Spells mem data (s ++ [0]) → str ≤ data → s.length < turns →
    hexSqueezeLoop turns mem str data = some (storeBytes mem str (s.filter isxdigit)) := by
  intro s
  induction s with
  | nil =>
    intro turns mem str data _ hs _ hturns
    obtain ⟨turns, rfl⟩ := Nat.exists_eq_add_one_of_ne_zero (Nat.ne_zero_of_lt hturns)
    rw [hexSqueezeLoop, if_pos hs.1, storeBytes_same hs.1, List.filter_nil, storeBytes_nil]
  | cons c s ih =>
    intro turns mem str data hnul hs hle hturns
    obtain ⟨turns, rfl⟩ := Nat.exists_eq_add_one_of_ne_zero (Nat.ne_zero_of_lt hturns)
    obtain ⟨hc, hs⟩ := hs
    have hc0 : 0 ≠ c := List.ne_of_not_mem_cons hnul
    have hnul : 0 ∉ s := List.not_mem_of_not_mem_cons hnul
    have hturns : s.length < turns := Nat.lt_of_succ_lt_succ hturns
    rw [hexSqueezeLoop, hc, if_neg (Ne.symm hc0)]
    cases hx : isxdigit c with
    | true =>
      have hkeep : Spells (storeBytes mem str [c]) (data + 1) (s ++ [0]) :=
        hs.congr fun i hi => storeBytes_outside (.inr (by simp only [List.length_singleton]; omega))
      have hsplit : storeBytes (storeBytes mem str [c]) (str + 1) (s.filter isxdigit) =
          storeBytes mem str (c :: s.filter isxdigit) := storeBytes_append mem str [c] _
      rw [if_pos rfl, ih hnul hkeep (by omega) hturns, hsplit, List.filter_cons_of_pos hx]
    | false =>
      rw [if_neg Bool.false_ne_true, ih hnul hs (by omega) hturns,
        List.filter_cons_of_neg (by rw [hx]; exact Bool.false_ne_true)]

/-- `strlen` finds the end of a text. -/
theorem strlen_eq : ∀ {s : Bytes} {turns : ℕ} {p : ℤ}, 0 ∉ s → Spells mem p (s ++ [0]) → s.length < turns →
    strlen turns mem p = some s.length := by
  intro s
  induction s with
  | nil =>
    intro turns p _ hs hturns
    obtain ⟨turns, rfl⟩ := Nat.exists_eq_add_one_of_ne_zero (Nat.ne_zero_of_lt hturns)
    rw [strlen, if_pos hs.1, List.length_nil]
  | cons c s ih =>
    intro turns p hnul hs hturns
    obtain ⟨turns, rfl⟩ := Nat.exists_eq_add_one_of_ne_zero (Nat.ne_zero_of_lt hturns)
    obtain ⟨hc, hs⟩ := hs
    have hc0 : 0 ≠ c := List.ne_of_not_mem_cons hnul
    have hnul : 0 ∉ s := List.not_mem_of_not_mem_cons hnul
    rw [strlen, hc, if_neg (Ne.symm hc0), ih hnul hs (Nat.lt_of_succ_lt_succ hturns), Option.map_some, List.length_cons]

namespace Text

variable (t : Text)

theorem length_hexDigits_le : t.hexDigits.length ≤ t.chars.length := List.length_filter_le _ _

theorem length_squeezed : t.squeezed.length = t.chars.length := by
  have := t.length_hexDigits_le
  rw [squeezed, List.length_append, List.length_drop]
  omega

theorem nul_not_mem_squeezed : 0 ∉ t.squeezed := by
  intro h
  rcases List.mem_append.mp h with h | h
  · exact t.noNul (List.mem_filter.mp h).1
  · exact t.noNul (List.mem_of_mem_drop h)

/-- The digits come first, and the rest is as it was. -/
theorem spells_squeezed (mem : ℤ → UInt8) (p : ℤ) :
    Spells (storeBytes (t.inMemory mem p) p t.hexDigits) p (t.squeezed ++ [0]) := by
  have hle := t.length_hexDigits_le
  have hold : Spells (t.inMemory mem p) p (t.chars ++ [0]) := spells_storeBytes
  have hcut : t.chars ++ [0] = t.chars.take t.hexDigits.length ++ (t.chars.drop t.hexDigits.length ++ [0]) := by
    rw [← List.append_assoc, List.take_append_drop]
  rw [hcut, spells_append, List.length_take, Nat.min_eq_left hle] at hold
  rw [squeezed, List.append_assoc, spells_append]
  exact ⟨spells_storeBytes, hold.2.congr fun i hi => storeBytes_outside (.inr hi)⟩

/-- What `str2bin` decodes: the digits, and what is behind them. -/
theorem str2bin_eq (mem : ℤ → UInt8) (p : ℤ) (iBinSize : Int32) {turns : ℕ} (h : t.chars.length < turns) :
    str2bin turns (t.inMemory mem p) p iBinSize = some (decode (storeBytes (t.inMemory mem p) p t.hexDigits) p
      (Int32.ofNat t.chars.length) iBinSize) := by
  have hsqueeze : hexSqueeze turns (t.inMemory mem p) p = some (storeBytes (t.inMemory mem p) p t.hexDigits) :=
    hexSqueezeLoop_eq t.noNul spells_storeBytes (Int.le_refl p) h
  have hlen := strlen_eq t.nul_not_mem_squeezed (t.spells_squeezed mem p) (t.length_squeezed ▸ h)
  rw [str2bin, hsqueeze, Option.bind_eq_bind, Option.bind_some, hlen, t.length_squeezed]
  rfl

end Text

/-! ### What is decoded -/

/-- The byte of a pair. -/
theorem getElem?_pairs : ∀ {s : Bytes} {i : ℕ}, i * 2 + 1 < s.length →
    (pairs s)[i]? = some (UInt8.ofNat (16 * digitValue (s.getD (i * 2) 0) + digitValue (s.getD (i * 2 + 1) 0)))
  | _ :: _ :: _, 0, _ => rfl
  | a :: b :: s, i + 1, hi => by
    have hplace : (i + 1) * 2 = i * 2 + 1 + 1 := by omega
    simp only [List.length_cons] at hi
    rw [pairs, List.getElem?_cons_succ, getElem?_pairs (s := s) (by omega), hplace, List.getD_cons_succ, List.getD_cons_succ,
      List.getD_cons_succ, List.getD_cons_succ]

/-- Two digits are a number of two digits. -/
theorem strtol_pair {a b : UInt8} (ha : isxdigit a = true) (hb : isxdigit b = true) :
    strtol [a, b] = (16 * digitValue a + digitValue b : ℕ) := by
  have hspace : isspace a = false := by
    unfold isxdigit at ha
    unfold isspace
    simp only [Bool.or_eq_true, Bool.and_eq_true, decide_eq_true_iff] at ha
    simp only [Bool.or_eq_false_iff, Bool.and_eq_false_iff, beq_eq_false_iff_ne, decide_eq_false_iff_not]
    omega
  have hsign : a ≠ 45 ∧ a ≠ 43 := by
    constructor
    · rintro rfl
      exact absurd ha (by decide)
    · rintro rfl
      exact absurd ha (by decide)
  have hdigits : digits 0 [a, b] = 16 * digitValue a + digitValue b := by
    rw [digits, if_pos ha, digits, if_pos hb, digits]
    omega
  have hskip : skipPrefix [a, b] = [a, b] := by
    unfold skipPrefix
    split
    · next h => cases h
    · rfl
  rw [strtol, List.dropWhile_cons_of_neg (by rw [hspace]; exact Bool.false_ne_true)]
  split
  · next h => exact absurd (List.cons.inj h).1 hsign.1
  · next h => exact absurd (List.cons.inj h).1 hsign.2
  · rw [hskip, hdigits]

theorem ofInt_cast (n : ℕ) : UInt8.ofInt n = UInt8.ofNat n := by
  have hmod : ((n : ℤ) % 2 ^ 8).toNat = n % 2 ^ 8 := by omega
  rw [UInt8.ofInt, hmod]
  exact UInt8.ofNat_mod_size

/-- As long as `str2bin` stays among the digits, it writes the bytes of their pairs. -/
theorem decode_digits {ds rest : Bytes} (hds : ∀ c ∈ ds, isxdigit c = true) (h : Spells mem p (ds ++ rest)) {n : ℕ}
    (hn : n ≤ ds.length / 2) :
    ((List.range n).map fun i => UInt8.ofInt (strtol [mem (p + (i * 2 : ℕ)), mem (p + (i * 2 + 1 : ℕ))])) =
      (pairs ds).take n := by
  have hds' := (spells_append.mp h).1
  refine List.ext_getElem? fun i => ?_
  by_cases hi : i < n
  · have hlo : i * 2 < ds.length := by omega
    have hhi : i * 2 + 1 < ds.length := by omega
    rw [List.getElem?_take_of_lt hi, getElem?_pairs hhi, List.getElem?_map, List.getElem?_range hi, Option.map_some,
      hds'.get _ hlo, hds'.get _ hhi, strtol_pair (hds _ (List.getElem_mem hlo)) (hds _ (List.getElem_mem hhi)),
      ofInt_cast, List.getD_eq_getElem?_getD, List.getD_eq_getElem?_getD,
      List.getElem?_eq_getElem hlo, List.getElem?_eq_getElem hhi, Option.getD_some, Option.getD_some]
  · rw [List.getElem?_eq_none (by rw [List.length_map, List.length_range]; omega),
      List.getElem?_eq_none (by rw [List.length_take]; omega)]

/-- What `str2bin` returns: the smaller one of the capacity and half the length. -/
theorem toInt_min (a b : Int32) : (if a / 2 > b then b else a / 2).toInt = min b.toInt (a / 2).toInt := by
  split
  · next h => exact (Int.min_eq_left (Int.le_of_lt (Int32.lt_iff_toInt_lt.mp h))).symm
  · next h => exact (Int.min_eq_right (Int.not_lt.mp fun hlt => h (Int32.lt_iff_toInt_lt.mpr hlt))).symm

/-- **`str2bin` decodes the digits** of a text, whatever stands between them, exactly if the capacity is no more than half
their number, or half the length of the text is half the number of the digits. It always ends. (The length of the text is an
`int`.) -/
theorem decodes_iff (t : Text) (mem : ℤ → UInt8) (psAsciiData : ℤ) (iBinSize : Int32) :
    ∃ ret out, (∀ turns, t.chars.length < turns →
        str2bin turns (t.inMemory mem psAsciiData) psAsciiData iBinSize = some (ret, out)) ∧
      (Decodes t iBinSize ret out ↔
        (iBinSize.toInt ≤ (t.hexDigits.length / 2 : ℕ) ∧ iBinSize.toInt ≤ (Int32.ofNat t.chars.length / 2).toInt) ∨
          (Int32.ofNat t.chars.length / 2).toInt = (t.hexDigits.length / 2 : ℕ)) := by
  refine ⟨_, _, fun turns h => t.str2bin_eq mem psAsciiData iBinSize h, ?_⟩
  have hret := toInt_min (Int32.ofNat t.chars.length) iBinSize
  have hds : ∀ c ∈ t.hexDigits, isxdigit c = true := fun c hc => (List.mem_filter.mp hc).2
  have hmem := t.spells_squeezed mem psAsciiData
  rw [Text.squeezed, List.append_assoc] at hmem
  constructor
  · rintro ⟨h, -⟩
    rw [hret] at h
    omega
  · intro h
    have hsame : min iBinSize.toInt (Int32.ofNat t.chars.length / 2).toInt = min iBinSize.toInt
      (t.hexDigits.length / 2 : ℕ) := by
      omega
    refine ⟨?_, ?_⟩
    · rw [hret, hsame]
    · exact decode_digits hds hmem (by rw [hret, hsame]; omega)

/-- "12 34 56". -/
def spaced : Text := ⟨[49, 50, 32, 51, 52, 32, 53, 54], by decide⟩

/-- Of "12 34 56" the last byte is decoded twice. -/
theorem not_decodes : ¬∀ ret out, str2bin 9 (spaced.inMemory (fun _ => 0) 0) 0 16 = some (ret, out) →
    Decodes spaced 16 ret out := by
  intro h
  have hout : str2bin 9 (spaced.inMemory (fun _ => 0) 0) 0 16 = some (4, [0x12, 0x34, 0x56, 0x56]) := by decide +kernel
  exact absurd (h _ _ hout).returned (by decide +kernel)

end KnvProto.Show
