import KnvProto.Packet.Oidb

/-!
# Where the decoder of the other format reads

`InitFromOidbPkg` adds two lengths that it has read from the packet in 32 bits and takes
the sum for an `int`. The packet lies in a memory here, in which what is before and
after it can be read, too; `initFromOidbMem` is the decoder with the places it reads and
the places of the values it makes nodes of.

`staysInside_iff`: it stays inside the packet unless the sum wraps to something that the
packet is long enough for, or the header goes up to the end token, behind which the
decoder looks for the start of a body.
-/

namespace KnvProto

open PathEdit KnvNode Varint

namespace KnvProtocol

/-- `len` bytes of the memory, from an offset on. -/
def bytesAt (mem : ℤ → UInt8) (off : ℤ) (len : ℕ) : Bytes := (List.range len).map fun i : ℕ => mem (off + (i : ℤ))

/-- What `InitFromOidbPkg` does: offsets are from `buf` on. -/
structure OidbRun where
  /-- What is read: offsets and numbers of bytes. A value that a node is made of counts as read. -/
  reads : List (ℤ × ℕ) := []
  /-- The value of `header`. -/
  header : Option (ℤ × ℕ) := none
  /-- The value of `tree` or `body`. -/
  body : Option (ℤ × ℕ) := none
  /-- The packet afterwards. -/
  prot : KnvProtocol

/-- The header length. -/
def oidbHlen (mem : ℤ → UInt8) : ℕ := ntohl (bytesAt mem 1 4)

/-- The body length. -/
def oidbBlen (mem : ℤ → UInt8) : ℕ := ntohl (bytesAt mem 5 4)

/-- `total_len`: the sum of the numbers wraps, and is an `int`. -/
def oidbTotal (mem : ℤ → UInt8) : ℤ := Int.bmod (oidbHlen mem + oidbBlen mem + 10) (2 ^ 32)

/-- `InitFromOidbPkg(buf, buflen)`, of a packet at offset 0 of a memory. -/
def initFromOidbMem (mem : ℤ → UInt8) (buflen : ℕ) (p : KnvProtocol) : OidbRun :=
  if buflen < 10 then { prot := { p with errmsg := "Bad OidbIpv6 packet: insufficient length" } }
  else
    let hlen := oidbHlen mem
    let blen := oidbBlen mem
    let totalLen := oidbTotal mem
    if (buflen : ℤ) < totalLen then
      { reads := [(1, 4), (5, 4)]
        prot := { p with errmsg := "Bad OidbIpv6 packet: insufficient length" } }
    else if mem (totalLen - 1) ≠ etxIpv6Pb then
      { reads := [(1, 4), (5, 4), (totalLen - 1, 1)]
        prot := { p with errmsg := "Bad OidbIpv6 packet: ETX token missing" } }
    else
      match KnvNode.new knvPkgHdrTag .string .varint none (some { str := bytesAt mem 9 hlen }) with
      | .error e =>
        { reads := [(1, 4), (5, 4), (totalLen - 1, 1), (9, hlen)]
          prot := { p with errmsg := "Construct header failed: " ++ e.errmsg } }
      | .ok hdr =>
        let bdy := bytesAt mem (9 + hlen) blen
        { reads := [(1, 4), (5, 4), (totalLen - 1, 1), (9, hlen), (9 + hlen, 2), (9 + hlen, blen)]
          header := some (9, hlen)
          body := some (9 + hlen, blen)
          prot := if ntohs (bytesAt mem (9 + hlen) 2) = stxKnvBdy then initBodies hdr bdy p else initCompat hdr bdy p }

/-- The decoder stays inside the packet: it reads nothing else, makes nodes only of lengths that fit, and of
the bytes after the lengths; and what it makes is what it makes of the bytes of the packet alone. -/
structure StaysInside (mem : ℤ → UInt8) (buflen : ℕ) (p : KnvProtocol) : Prop where
  reads : ∀ r ∈ (initFromOidbMem mem buflen p).reads, 0 ≤ r.1 ∧ r.1 + r.2 ≤ buflen
  fits : (initFromOidbMem mem buflen p).header ≠ none ∨ (initFromOidbMem mem buflen p).body ≠ none →
    10 + oidbHlen mem + oidbBlen mem ≤ buflen
  header : ∀ v, (initFromOidbMem mem buflen p).header = some v → v = (9, oidbHlen mem)
  body : ∀ v, (initFromOidbMem mem buflen p).body = some v → v = (9 + (oidbHlen mem : ℤ), oidbBlen mem)
  prot : (initFromOidbMem mem buflen p).prot = initFromOidbPkg (bytesAt mem 0 buflen) p

/-- The lengths lead out of the packet: the wrapped sum is not too large, and it is not positive, or there is an end
token where it points to and it is not the sum, or the header leaves no room for a body. -/
def Overruns (mem : ℤ → UInt8) (buflen : ℕ) : Prop :=
  10 ≤ buflen ∧ oidbTotal mem ≤ buflen ∧ (oidbTotal mem ≤ 0 ∨ mem (oidbTotal mem - 1) = etxIpv6Pb ∧
    ((oidbHlen mem + oidbBlen mem + 10 : ℤ) ≠ oidbTotal mem ∨ 10 + oidbHlen mem = buflen))

/-! ### The bytes of the packet -/

@[simp] theorem length_bytesAt (mem : ℤ → UInt8) (off : ℤ) (len : ℕ) : (bytesAt mem off len).length = len := by
  rw [bytesAt, List.length_map, List.length_range]

theorem getElem?_bytesAt {mem : ℤ → UInt8} {off : ℤ} {len i : ℕ} (h : i < len) :
    (bytesAt mem off len)[i]? = some (mem (off + i)) := by
  rw [bytesAt, List.getElem?_map, List.getElem?_range h, Option.map_some]

/-- The last byte that a length of the packet points to. -/
theorem getElem?_bytesAt_pred {mem : ℤ → UInt8} {buflen : ℕ} {total : ℤ} (hpos : 0 < total) (hle : total ≤ buflen) :
    (bytesAt mem 0 buflen)[(total - 1).toNat]? = some (mem (total - 1)) := by
  have hidx : (0 : ℤ) + ((total - 1).toNat : ℤ) = total - 1 := by omega
  rw [getElem?_bytesAt (by omega), hidx]

/-- A part of the packet. -/
theorem take_drop_bytesAt {mem : ℤ → UInt8} {buflen k len : ℕ} (h : k + len ≤ buflen) :
    ((bytesAt mem 0 buflen).drop k).take len = bytesAt mem k len := by
  apply List.ext_getElem?
  intro i
  rw [List.getElem?_take]
  split
  · next hi =>
    rw [List.getElem?_drop, getElem?_bytesAt (by omega), getElem?_bytesAt hi]
    simp
  · next hi => rw [List.getElem?_eq_none (by rw [length_bytesAt]; omega)]

theorem ntohl_drop {mem : ℤ → UInt8} {buflen k : ℕ} (h : k + 4 ≤ buflen) :
    ntohl ((bytesAt mem 0 buflen).drop k) = ntohl (bytesAt mem k 4) := by
  rw [ntohl, ntohl, take_drop_bytesAt h, List.take_of_length_le (by simp)]

theorem ntohs_drop {mem : ℤ → UInt8} {buflen k : ℕ} (h : k + 2 ≤ buflen) :
    ntohs ((bytesAt mem 0 buflen).drop k) = ntohs (bytesAt mem k 2) := by
  rw [ntohs, ntohs, take_drop_bytesAt h, List.take_of_length_le (by simp)]

/-! ### Staying inside -/

theorem new_header (v : PbVal) : KnvNode.new knvPkgHdrTag .string .varint none (some v) =
    .ok (initNode knvPkgHdrTag .string (some v)) := rfl

/-- A sum that an `int` can hold is not wrapped. -/
theorem oidbTotal_eq {mem : ℤ → UInt8} (h : oidbHlen mem + oidbBlen mem + 10 < 2 ^ 31) :
    oidbTotal mem = oidbHlen mem + oidbBlen mem + 10 := by
  generalize hhl : oidbHlen mem = hlen at *
  generalize hbl : oidbBlen mem = blen at *
  have hwrap : Int.bmod ((hlen : ℤ) + blen + 10) (2 ^ 32) = hlen + blen + 10 :=
    Int.bmod_eq_of_le (by omega) (by omega)
  rw [← hwrap, ← hhl, ← hbl]
  rfl

section

variable {mem : ℤ → UInt8} {buflen : ℕ} (p : KnvProtocol)

/-- A packet that is cut short. -/
theorem initFromOidbMem_short (h : 10 ≤ buflen) (ht : (buflen : ℤ) < oidbTotal mem) :
    initFromOidbMem mem buflen p = { reads := [(1, 4), (5, 4)]
                                     prot := { p with errmsg := "Bad OidbIpv6 packet: insufficient length" } } := by
  unfold initFromOidbMem
  rw [if_neg (Nat.not_lt.mpr h)]
  simp only
  rw [if_pos ht]

/-- A packet that does not end where the lengths say. -/
theorem initFromOidbMem_open (h : 10 ≤ buflen) (ht : oidbTotal mem ≤ buflen)
    (hetx : mem (oidbTotal mem - 1) ≠ etxIpv6Pb) :
    initFromOidbMem mem buflen p = { reads := [(1, 4), (5, 4), (oidbTotal mem - 1, 1)]
                                     prot := { p with errmsg := "Bad OidbIpv6 packet: ETX token missing" } } := by
  unfold initFromOidbMem
  rw [if_neg (Nat.not_lt.mpr h)]
  simp only
  rw [if_neg (Int.not_lt.mpr ht), if_pos hetx]

/-- A packet that is taken apart. -/
theorem initFromOidbMem_etx (h : 10 ≤ buflen) (ht : oidbTotal mem ≤ buflen)
    (hetx : mem (oidbTotal mem - 1) = etxIpv6Pb) :
    (initFromOidbMem mem buflen p).reads = [(1, 4), (5, 4), (oidbTotal mem - 1, 1), (9, oidbHlen mem),
        (9 + (oidbHlen mem : ℤ), 2), (9 + (oidbHlen mem : ℤ), oidbBlen mem)] ∧
      (initFromOidbMem mem buflen p).header = some (9, oidbHlen mem) ∧
      (initFromOidbMem mem buflen p).body = some (9 + (oidbHlen mem : ℤ), oidbBlen mem) ∧
      (initFromOidbMem mem buflen p).prot =
        (let hdr := initNode knvPkgHdrTag .string (some { str := bytesAt mem 9 (oidbHlen mem) })
        let bdy := bytesAt mem (9 + (oidbHlen mem : ℤ)) (oidbBlen mem)
        if ntohs (bytesAt mem (9 + (oidbHlen mem : ℤ)) 2) = stxKnvBdy then initBodies hdr bdy p
        else initCompat hdr bdy p) := by
  unfold initFromOidbMem
  rw [if_neg (Nat.not_lt.mpr h)]
  simp only
  rw [if_neg (Int.not_lt.mpr ht), if_neg (not_not_intro hetx), new_header]
  exact ⟨rfl, rfl, rfl, rfl⟩

theorem not_overruns_of_staysInside (hint : buflen < 2 ^ 31) (h : StaysInside mem buflen p) : ¬Overruns mem buflen := by
  rintro ⟨hlen, htotal, hout⟩
  have hsum := @oidbTotal_eq mem
  by_cases hetx : mem (oidbTotal mem - 1) = etxIpv6Pb
  · obtain ⟨hr, hh, -, -⟩ := initFromOidbMem_etx p hlen htotal hetx
    have hreads := h.reads
    have hfits := h.fits (.inl (by rw [hh]; exact Option.some_ne_none _))
    rw [hr] at hreads
    have hneg := (hreads _ (List.mem_cons_of_mem _ (List.mem_cons_of_mem _ (List.mem_cons_self ..)))).1
    have hlook := (hreads (9 + (oidbHlen mem : ℤ), 2) (by simp)).2
    generalize oidbHlen mem = hl at *
    generalize oidbBlen mem = bl at *
    have hwrap := hsum (by omega)
    simp only at hneg hlook
    rcases hout with hout | ⟨-, hout | hout⟩
    · omega
    · exact hout hwrap.symm
    · omega
  · have hreads := h.reads
    rw [initFromOidbMem_open p hlen htotal hetx] at hreads
    have hneg := (hreads _ (List.mem_cons_of_mem _ (List.mem_cons_of_mem _ (List.mem_cons_self ..)))).1
    simp only at hneg
    rcases hout with hout | ⟨hout, -⟩
    · omega
    · exact hetx hout

end

/-- What the decoder makes of the bytes of a packet. -/
theorem initFromOidbPkg_bytesAt {mem : ℤ → UInt8} {buflen : ℕ} (h : 10 ≤ buflen) (p : KnvProtocol) :
    initFromOidbPkg (bytesAt mem 0 buflen) p =
      if (buflen : ℤ) < oidbTotal mem then { p with errmsg := "Bad OidbIpv6 packet: insufficient length" }
      else if oidbTotal mem ≤ 0 ∨ (bytesAt mem 0 buflen)[(oidbTotal mem - 1).toNat]? ≠ some etxIpv6Pb then
        { p with errmsg := "Bad OidbIpv6 packet: ETX token missing" }
      else
        let hdr := initNode knvPkgHdrTag .string (some { str := ((bytesAt mem 0 buflen).drop 9).take (oidbHlen mem) })
        let rest := (bytesAt mem 0 buflen).drop (9 + oidbHlen mem)
        if ntohs rest = stxKnvBdy then initBodies hdr (rest.take (oidbBlen mem)) p
        else initCompat hdr (rest.take (oidbBlen mem)) p := by
  have hone : ntohl ((bytesAt mem 0 buflen).drop 1) = oidbHlen mem := ntohl_drop (k := 1) (by omega)
  have hfive : ntohl ((bytesAt mem 0 buflen).drop 5) = oidbBlen mem := ntohl_drop (k := 5) (by omega)
  unfold initFromOidbPkg
  rw [length_bytesAt, if_neg (Nat.not_lt.mpr h), hone, hfive]
  rfl

/-- A decoder that makes no nodes. -/
theorem staysInside_of_refused {mem : ℤ → UInt8} {buflen : ℕ} {p q : KnvProtocol} {reads : List (ℤ × ℕ)}
    (hrun : initFromOidbMem mem buflen p = { reads := reads, prot := q })
    (hreads : ∀ r ∈ reads, 0 ≤ r.1 ∧ r.1 + r.2 ≤ (buflen : ℤ)) (hpkg : initFromOidbPkg (bytesAt mem 0 buflen) p = q) :
    StaysInside mem buflen p := by
  refine ⟨?_, fun h => ?_, fun v h => ?_, fun v h => ?_, ?_⟩
  · rw [hrun]
    exact hreads
  · rw [hrun] at h
    exact absurd h (by simp)
  · rw [hrun] at h
    cases h
  · rw [hrun] at h
    cases h
  · rw [hrun, hpkg]

theorem staysInside_of_not_overruns {mem : ℤ → UInt8} {buflen : ℕ} {p : KnvProtocol} (h : ¬Overruns mem buflen) :
    StaysInside mem buflen p := by
  by_cases hten : buflen < 10
  · exact staysInside_of_refused (if_pos hten) (fun _ hr => absurd hr List.not_mem_nil)
      (if_pos (by rw [length_bytesAt]; exact hten))
  rw [Nat.not_lt] at hten
  have hpkg := @initFromOidbPkg_bytesAt mem _ hten p
  by_cases hbig : (buflen : ℤ) < oidbTotal mem
  · refine staysInside_of_refused (initFromOidbMem_short p hten hbig) (fun r hr => ?_) (hpkg.trans (if_pos hbig))
    simp only [List.mem_cons, List.not_mem_nil, or_false] at hr
    rcases hr with rfl | rfl <;> constructor <;> simp only <;> omega
  have htotal := Int.not_lt.mp hbig
  have hpkg := hpkg.trans (if_neg hbig)
  have hpos : 0 < oidbTotal mem := by
    by_contra hneg
    exact h ⟨hten, htotal, .inl (Int.not_lt.mp hneg)⟩
  have hat := @getElem?_bytesAt_pred mem _ _ hpos htotal
  by_cases hetx : mem (oidbTotal mem - 1) = etxIpv6Pb
  swap
  · refine staysInside_of_refused (initFromOidbMem_open p hten htotal hetx) (fun r hr => ?_)
      (hpkg.trans (if_pos (.inr fun he => hetx (Option.some.inj (hat.symm.trans he)))))
    simp only [List.mem_cons, List.not_mem_nil, or_false] at hr
    rcases hr with rfl | rfl | rfl <;> constructor <;> simp only <;> omega
  -- the sum is the lengths', and there is room for a body
  have hsum : (oidbHlen mem + oidbBlen mem + 10 : ℤ) = oidbTotal mem := by
    by_contra hne
    exact h ⟨hten, htotal, .inr ⟨hetx, .inl hne⟩⟩
  have hroom : 10 + oidbHlen mem ≠ buflen := fun heq => h ⟨hten, htotal, .inr ⟨hetx, .inr heq⟩⟩
  obtain ⟨hr, hh, hb, hprot⟩ := initFromOidbMem_etx p hten htotal hetx
  have hpkg := hpkg.trans (if_neg fun hor => hor.elim (fun hle => absurd hpos (Int.not_lt.mpr hle)) fun hne =>
    hne (by rw [hat, hetx]))
  refine ⟨fun r hmem => ?_, fun _ => ?_, fun v hv => ?_, fun v hv => ?_, ?_⟩
  · rw [hr] at hmem
    generalize oidbHlen mem = hl at *
    generalize oidbBlen mem = bl at *
    simp only [List.mem_cons, List.not_mem_nil, or_false] at hmem
    rcases hmem with rfl | rfl | rfl | rfl | rfl | rfl <;> constructor <;> simp only <;> omega
  · generalize oidbHlen mem = hl at *
    generalize oidbBlen mem = bl at *
    omega
  · exact Option.some.inj (hv.symm.trans hh)
  · exact Option.some.inj (hv.symm.trans hb)
  · have hle : 9 + oidbHlen mem + oidbBlen mem + 1 ≤ buflen ∧ 9 + oidbHlen mem + 2 ≤ buflen := by
      generalize oidbHlen mem = hl at *
      generalize oidbBlen mem = bl at *
      omega
    have hhdr : ((bytesAt mem 0 buflen).drop 9).take (oidbHlen mem) = bytesAt mem 9 (oidbHlen mem) :=
      take_drop_bytesAt (by have := hle.1; omega)
    have hbdy : ((bytesAt mem 0 buflen).drop (9 + oidbHlen mem)).take (oidbBlen mem) =
        bytesAt mem (9 + (oidbHlen mem : ℤ)) (oidbBlen mem) :=
      (take_drop_bytesAt (by have := hle.1; omega)).trans (by push_cast; rfl)
    have hlook : ntohs ((bytesAt mem 0 buflen).drop (9 + oidbHlen mem)) =
        ntohs (bytesAt mem (9 + (oidbHlen mem : ℤ)) 2) := (ntohs_drop hle.2).trans (by push_cast; rfl)
    rw [hpkg, hprot]
    simp only [hhdr, hbdy, hlook]

/-- **When the decoder stays inside the packet**, whatever is in it and around it. -/
theorem staysInside_iff (mem : ℤ → UInt8) (buflen : ℕ) (p : KnvProtocol) (hint : buflen < 2 ^ 31) :
    StaysInside mem buflen p ↔ ¬Overruns mem buflen :=
  ⟨not_overruns_of_staysInside p hint, staysInside_of_not_overruns⟩

/-- A memory with a packet in it, and zeros around it. -/
def memOf (bs : Bytes) : ℤ → UInt8 := fun i => if 0 ≤ i then bs.getD i.toNat 0 else 0

instance (mem : ℤ → UInt8) (buflen : ℕ) : Decidable (Overruns mem buflen) := inferInstanceAs (Decidable (_ ∧ _))

/-- A packet with an empty header and a body of two bytes. -/
theorem staysInside_iff_packet : StaysInside (memOf [0x28, 0, 0, 0, 0, 0, 0, 0, 2, 8, 7, 0x29]) 12 {} :=
  (staysInside_iff _ 12 {} (by decide)).mpr (by decide +kernel)

/-- Ten bytes with a header length of `2^32 - 5` and a body length of `5`, the sum of which wraps to nothing. -/
theorem not_staysInside : ¬∀ mem buflen p, buflen < 2 ^ 31 → StaysInside mem buflen p := fun h =>
  (staysInside_iff _ 10 {} (by decide)).mp
    (h (memOf [0x28, 0xff, 0xff, 0xff, 0xfb, 0, 0, 0, 5, 0x29]) 10 {} (by decide)) (by decide +kernel)

end KnvProtocol

end KnvProto
