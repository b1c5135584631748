import KnvProto.Packet.Encode
import KnvProto.Tree.Duplicate

/-!
# Packets of the other format

`EncodeOidb`, `EncodeOidbWithBody` and the decoder `InitFromOidbPkg`: a start token,
the lengths of header and bodies as four bytes each, the value of the header, the
bodies, and an end token.

The two encoders and the decoder do not agree. `EncodeAllOidb` leaves the end token
out of the length that it returns, so that what it encodes is refused
(`not_isValid_encodeOidb`). What `EncodeOidbWithBody` encodes is decoded, but
`InitFromOidbPkg` sets `header`, which `EXPAND_TREE` takes for a sign that the bodies
have been looked for: there is no current body, or it is not the one that was encoded
(`getBody_encodeOidbWithBody`). No packet comes back whole (`not_reread_of_encodeOidb`).

## The model

The numbers in front are those of network byte order. A total of `2^31` or more does
not fit `int`, and nothing is allocated for it. What the source reads beyond the end
of a buffer is no byte here. What the encoders leave folded in the header is left out.
-/

namespace KnvProto

open PathEdit KnvNode Varint

/-- `ETX_IPV6_PB`, the last byte. -/
abbrev etxIpv6Pb : UInt8 := 0x29

/-- `STX_KNV_BDY`, the first bytes of a body. -/
abbrev stxKnvBdy : ℕ := 0xeada

/-- `htonl`, as it lies in memory. -/
def htonl (v : ℕ) : Bytes := (leBytes 4 v).reverse

/-- `ntohl`, of what lies in memory. -/
def ntohl (bs : Bytes) : ℕ := ofLeBytes (bs.take 4).reverse

/-- `ntohs`, of what lies in memory. -/
def ntohs (bs : Bytes) : ℕ := ofLeBytes (bs.take 2).reverse

namespace KnvProtocol

/-! ### Encoding -/

/-- The start token, the lengths, the header, and bodies for which there is a room of `bdySz` bytes. -/
def oidbFront (hdr : Bytes) (bdySz : ℕ) (bdy : Bytes) : Bytes :=
  stxIpv6Pb :: (htonl hdr.length ++ (htonl bdySz ++ (hdr ++ bdy)))

/-- A packet: the end token is behind the room for the bodies. -/
def oidbFrame (hdr : Bytes) (bdySz : ℕ) (bdy : Bytes) : Bytes :=
  oidbFront hdr bdySz bdy ++ (List.replicate (bdySz - bdy.length) 0 ++ [etxIpv6Pb])

/-- The bytes of the header. -/
def headerValue (p : KnvProtocol) : Except KnvErr Bytes :=
  match p.headerNode with
  | none => .error ⟨-1, "Protocol is not initialized"⟩
  | some h => h.getValue.2.map (·.str)

/-- `EncodeOidb(mem, body_tree)`. -/
def encodeOidbTree (bodyTree : Option KnvNode) (p : KnvProtocol) : Except KnvErr Bytes :=
  match p.headerValue with
  | .error e => .error e
  | .ok hdr =>
    let bdySz := bodySize bodyTree
    let totalSz := hdr.length + bdySz + 10
    if 2 ^ 31 ≤ totalSz then .error ⟨-4, "UcMemManager::Alloc failed"⟩
    else match bodyTree with
    | none => .ok (oidbFrame hdr bdySz [])
    | some b =>
      if bdySz = 0 then .ok (oidbFrame hdr bdySz [])
      else match b.serialize bdySz true with
      | .error e => .error ⟨-5, "Serialize body failed: " ++ e.errmsg⟩
      | .ok bdy => .ok (oidbFrame hdr bdySz bdy)

/-- `EncodeAllOidb`: all children but the headers, one after the other. -/
def encodeAllOidb (p : KnvProtocol) : Except KnvErr Bytes :=
  match p.tree, p.headerValue with
  | some t, .ok hdr =>
    let maxBdySz := t.evaluateSize.evalSz.toNat
    let maxTotalSz := hdr.length + maxBdySz + 10
    if 2 ^ 31 ≤ maxTotalSz then .error ⟨-4, "UcMemManager::Alloc failed"⟩
    else match serializeAll (-5) false (t.children.filter fun n => n.tag ≠ knvPkgHdrTag) maxBdySz [] with
    | .error e => .error ⟨-5, "Serialize body failed: " ++ e.errmsg⟩
    -- the length that is returned is that of the lengths and the values before the end token
    | .ok bdy => .ok ((oidbFrame hdr bdy.length bdy).take (hdr.length + bdy.length + 9))
  | _, .error e => .error e
  | none, _ => .error ⟨-1, "Protocol is not initialized"⟩

/-- `EncodeOidb(s)`. -/
def encodeOidb (p : KnvProtocol) : Except KnvErr Bytes :=
  if !p.isValid then .error ⟨-1, "Protocol is not initialized"⟩
  else if p.retcode ≠ 0 then p.encodeOidbTree none
  else p.encodeAllOidb

/-- `EncodeOidbWithBody(b, s)`. -/
def encodeOidbWithBody (b : KnvNode) (p : KnvProtocol) : Except KnvErr Bytes :=
  match p.setReply 0 [] with
  | (p, 0) => p.encodeOidbTree (some b)
  | (p, r) => .error ⟨r, p.errmsg⟩

/-! ### Decoding -/

/-- The part of `InitFromOidbPkg` for bodies of this format: the header is put in front of them. -/
def initBodies (hdr : KnvNode) (bdy : Bytes) (p : KnvProtocol) : KnvProtocol :=
  match KnvNode.new knvPkgTag .string .varint none (some { str := bdy }) with
  | .error e => { p with errmsg := "Construct knv tree failed: " ++ e.errmsg }
  | .ok t =>
    let o := insertChild hdr true false {} t
    match o.ret with
    | .error e => { p with errmsg := "Insert header to knv tree failed: " ++ e.errmsg }
    | .ok _ => { p with tree := some o.node, header := (o.node.childlist.head?).map (·.self) }

/-- The part of `InitFromOidbPkg` for what is not in this format: it is the value of one body. -/
def initCompat (hdr : KnvNode) (bdy : Bytes) (p : KnvProtocol) : KnvProtocol :=
  match KnvNode.new knvPkgBdyTag .string .varint none (some { str := bdy }), newTree knvPkgTag with
  | .ok b, .ok t =>
    let o := insertChild hdr true true {} t
    match o.ret with
    | .error e => { p with errmsg := "Insert header to knv tree failed: " ++ e.errmsg }
    | .ok _ =>
      let o' := insertChild b true true {} o.node
      match o'.ret with
      | .error e => { p with errmsg := "Insert body to knv tree failed: " ++ e.errmsg }
      | .ok _ => { p with
          tree := some o'.node
          header := (o.node.childlist.getLast?).map (·.self)
          body := (o'.node.childlist.getLast?).map fun c => .child c.self }
  | .error e, _ => { p with errmsg := "Construct knv tree failed: " ++ e.errmsg }
  | _, .error e => { p with errmsg := "Construct knv tree failed: " ++ e.errmsg }

/-- `InitFromOidbPkg`. -/
def initFromOidbPkg (buf : Bytes) (p : KnvProtocol) : KnvProtocol :=
  if buf.length < 10 then { p with errmsg := "Bad OidbIpv6 packet: insufficient length" }
  else
    let hlen := ntohl (buf.drop 1)
    let blen := ntohl (buf.drop 5)
    -- the sum of the numbers wraps, and is an `int`
    let totalLen : ℤ := Int.bmod (hlen + blen + 10) (2 ^ 32)
    if (buf.length : ℤ) < totalLen then { p with errmsg := "Bad OidbIpv6 packet: insufficient length" }
    else if totalLen ≤ 0 ∨ buf[(totalLen - 1).toNat]? ≠ some etxIpv6Pb then
      { p with errmsg := "Bad OidbIpv6 packet: ETX token missing" }
    else
      match KnvNode.new knvPkgHdrTag .string .varint none (some { str := (buf.drop 9).take hlen }) with
      | .error e => { p with errmsg := "Construct header failed: " ++ e.errmsg }
      | .ok hdr =>
        -- this format has many bodies and the other one only one: it holds all of ours
        let rest := buf.drop (9 + hlen)
        if ntohs rest = stxKnvBdy then initBodies hdr (rest.take blen) p else initCompat hdr (rest.take blen) p

/-- `KnvProtocol(buf, own_buf)`, with its decoder of the other format. -/
def decode (buf : Bytes) : KnvProtocol := ofBuf initFromOidbPkg buf

/-! ### Reading the frame -/

theorem length_htonl (v : ℕ) : (htonl v).length = 4 := by rw [htonl, List.length_reverse, length_leBytes]

theorem ntohl_htonl {v : ℕ} (h : v < 2 ^ 32) (rest : Bytes) : ntohl (htonl v ++ rest) = v := by
  rw [ntohl, List.take_left' (length_htonl v), htonl, List.reverse_reverse, ofLeBytes_leBytes]
  exact Nat.mod_eq_of_lt h

section

variable (hdr : Bytes) (bdySz : ℕ) (bdy rest : Bytes)

theorem length_oidbFront : (oidbFront hdr bdySz bdy).length = hdr.length + bdy.length + 9 := by
  simp only [oidbFront, List.length_cons, List.length_append, length_htonl]
  omega

theorem drop_one_oidbFront :
    (oidbFront hdr bdySz bdy ++ rest).drop 1 = htonl hdr.length ++ (htonl bdySz ++ (hdr ++ (bdy ++ rest))) := by
  simp only [oidbFront, List.cons_append, List.append_assoc]
  rfl

theorem drop_five_oidbFront : (oidbFront hdr bdySz bdy ++ rest).drop 5 = htonl bdySz ++ (hdr ++ (bdy ++ rest)) := by
  rw [show (5 : ℕ) = 1 + 4 from rfl, ← List.drop_drop, drop_one_oidbFront, List.drop_left' (length_htonl _)]

theorem drop_header_oidbFront : (oidbFront hdr bdySz bdy ++ rest).drop (9 + hdr.length) = bdy ++ rest := by
  rw [show 9 + hdr.length = 5 + 4 + hdr.length from rfl, ← List.drop_drop, ← List.drop_drop, drop_five_oidbFront,
    List.drop_left' (length_htonl _), List.drop_left' rfl]

end

/-- A packet without an end is given no tree. -/
theorem tree_initFromOidbPkg_front {hdr bdy : Bytes} (hlt : hdr.length + bdy.length + 10 < 2 ^ 31) {q : KnvProtocol}
    (hq : q.tree = none) : (initFromOidbPkg (oidbFront hdr bdy.length bdy) q).tree = none := by
  have hone := drop_one_oidbFront hdr bdy.length bdy []
  have hfive := drop_five_oidbFront hdr bdy.length bdy []
  rw [List.append_nil] at hone hfive
  unfold initFromOidbPkg
  rw [length_oidbFront, hone, hfive, ntohl_htonl (by omega), ntohl_htonl (by omega)]
  split
  · exact hq
  · have hwrap : Int.bmod ((hdr.length : ℤ) + bdy.length + 10) (2 ^ 32) = hdr.length + bdy.length + 10 :=
      Int.bmod_eq_of_le (by omega) (by omega)
    simp only [hwrap]
    rw [if_pos (by push_cast; omega)]
    exact hq

/-- A packet that is given no tree is not valid. -/
theorem not_isValid_initProtocol {p : KnvProtocol} (h : p.tree = none) : p.initProtocol.isValid = false := by
  unfold initProtocol
  rw [h]
  rfl

/-- **What `EncodeAllOidb` encodes is refused**: one byte is missing. -/
theorem not_isValid_encodeAllOidb {p : KnvProtocol} {s : Bytes} (hs : p.encodeAllOidb = .ok s) :
    (decode s).isValid = false := by
  unfold encodeAllOidb at hs
  split at hs
  · next t hdr _ _ =>
    simp only at hs
    split at hs
    · cases hs
    next hmax =>
    split at hs
    · cases hs
    next bdy hbdy =>
    cases hs
    have hfit : bdy.length ≤ t.evaluateSize.evalSz.toNat := by
      obtain ⟨bs, -, hle, -⟩ := serializeAll_room (fun x _ => roomy x) (Nat.zero_le _) hbdy
      exact hle
    have hfront : (oidbFrame hdr bdy.length bdy).take (hdr.length + bdy.length + 9) = oidbFront hdr bdy.length bdy :=
      List.take_left' (length_oidbFront ..)
    have hhead : (oidbFront hdr bdy.length bdy).headD 0 = stxIpv6Pb := rfl
    rw [hfront, decode, ofBuf, if_pos hhead]
    exact not_isValid_initProtocol (tree_initFromOidbPkg_front (by omega) rfl)
  · cases hs
  · cases hs

/-- The same, of `EncodeOidb`. -/
theorem not_isValid_encodeOidb {p : KnvProtocol} (hret : p.retcode = 0) {s : Bytes} (hs : p.encodeOidb = .ok s) :
    (decode s).isValid = false := by
  unfold encodeOidb at hs
  split at hs
  · cases hs
  · rw [if_neg (not_not_intro hret)] at hs
    exact not_isValid_encodeAllOidb hs

/-! ### The current body -/

/-- `InitHeaderInfo` expands the header, and reads it. -/
theorem initHeaderInfo_spec (p : KnvProtocol) : p.initHeaderInfo.header = p.header ∧ p.initHeaderInfo.body = p.body ∧
    ∀ t', p.initHeaderInfo.tree = some t' → ∃ t, p.tree = some t ∧ SameStand t t' := by
  unfold initHeaderInfo
  split
  · exact ⟨rfl, rfl, fun t' ht' => ⟨t', ht', .refl t'⟩⟩
  next h hh =>
  unfold KnvProtocol.onHeader
  split
  · exact ⟨rfl, rfl, fun t' ht' => ⟨t', ht', .refl t'⟩⟩
  next o ho =>
  obtain ⟨t, ht, ho⟩ := Option.bind_eq_some_iff.mp ho
  obtain ⟨a, ha, ho⟩ := Option.bind_eq_some_iff.mp ho
  refine ⟨rfl, rfl, fun t' ht' => ⟨t, ht, ?_⟩⟩
  cases ht'
  refine sameStand_onChild (fun pl n => ?_) ho
  unfold expandOp expand
  cases n.isValid with
  | false => exact ⟨rfl, rfl, rfl⟩
  | true =>
    have hsame := expandSame pl.parentKeyed false n
    exact ⟨hsame.self, hsame.tag, hsame.type⟩

/-- `InitProtocol` does not look for bodies where there is a header already. -/
theorem getBody_initProtocol {p : KnvProtocol} (hh : p.tree = none ∨ p.header ≠ none) (hbody : ∀ b, p.body ≠ some (.other b))
    {c : KnvNode} (hc : p.initProtocol.getBody = some c) :
    p.body ≠ none ∧ ∃ t, p.tree = some t ∧ ∃ x ∈ t.childlist, x.type = c.type := by
  unfold initProtocol at hc
  cases ht : p.tree with
  | none =>
    rw [ht] at hc
    cases hc
  | some t =>
    rw [ht] at hc
    simp only at hc
    split at hc
    · cases hc
    obtain ⟨a, ha⟩ := Option.ne_none_iff_exists'.mp (hh.resolve_left (by simp [ht]))
    have hexpand : p.expandTree t = p := by
      unfold expandTree
      rw [ha]
    rw [hexpand, ht] at hc
    simp only [Option.isNone_some, Bool.false_eq_true, if_false] at hc
    obtain ⟨-, hb, htree⟩ := initHeaderInfo_spec p
    unfold getBody at hc
    split at hc
    swap
    · cases hc
    obtain ⟨hc, -⟩ := Option.filter_eq_some_iff.mp hc
    obtain ⟨b, hpb, hc⟩ := Option.bind_eq_some_iff.mp hc
    rw [hb] at hpb
    refine ⟨by simp [hpb], ?_⟩
    cases b with
    | other b => exact absurd hpb (hbody b)
    | child a' =>
      obtain ⟨t', ht', hfind⟩ := Option.bind_eq_some_iff.mp hc
      obtain ⟨t₀, ht₀, hstand⟩ := htree t' ht'
      cases ht.symm.trans ht₀
      obtain ⟨x, hx, -, -, htype⟩ := hstand.mem (List.mem_of_find?_eq_some hfind)
      exact ⟨t, rfl, x, hx, htype⟩

/-- What `InitFromOidbPkg` makes of bodies of this format: there is no current body. -/
theorem initBodies_spec (hdr : KnvNode) (bdy : Bytes) :
    ((initBodies hdr bdy {}).tree = none ∨ (initBodies hdr bdy {}).header ≠ none) ∧
    (initBodies hdr bdy {}).body = none := by
  unfold initBodies
  split
  · exact ⟨.inl rfl, rfl⟩
  next t _ =>
  simp only
  split
  · exact ⟨.inl rfl, rfl⟩
  next r hr =>
  obtain ⟨-, -, c, d, -, -, heq⟩ := insertChild_ok hr
  refine ⟨.inr ?_, rfl⟩
  rw [heq, (touched_finish ..).childlist, childlist_linkChild, if_neg Bool.false_ne_true]
  exact Option.some_ne_none _

/-- What `InitFromOidbPkg` makes of anything else: a header and a body, which are strings. -/
theorem initCompat_spec {hdr : KnvNode} (hhdr : hdr.type = .string) (bdy : Bytes) :
    ((initCompat hdr bdy {}).tree = none ∨ (initCompat hdr bdy {}).header ≠ none) ∧
      (∀ b, (initCompat hdr bdy {}).body ≠ some (.other b)) ∧
      ∀ t, (initCompat hdr bdy {}).tree = some t → ∀ c ∈ t.childlist, c.type = .string := by
  have hnone : ∀ b, (none : Option BodyPtr) ≠ some (.other b) := fun b => (Option.some_ne_none _).symm
  unfold initCompat
  split
  · next b t hb ht =>
    simp only
    split
    · exact ⟨.inl rfl, hnone, fun t ht => nomatch ht⟩
    next r hr =>
    split
    · exact ⟨.inl rfl, hnone, fun t ht => nomatch ht⟩
    next r' hr' =>
    obtain ⟨-, -, c, d, hc, hd, heq⟩ := insertChild_ok hr
    obtain ⟨-, -, c', d', hc', hd', heq'⟩ := insertChild_ok hr'
    cases hc
    cases hc'
    cases hb
    cases ht
    have hlist : (insertChild hdr true true {} (initNode knvPkgTag .string none)).node.childlist = [d.at' 0] := by
      rw [heq, (touched_finish ..).childlist, childlist_linkChild]
      rfl
    have hexp : (insertChild hdr true true {} (initNode knvPkgTag .string none)).node.expanded = true := by
      rw [heq]
      exact (touched_finish ..).expanded
    have hlist' := (touched_finish ((insertChild hdr true true {} (initNode knvPkgTag .string none)).node.linkChild d' true)
      d'.evalSz).childlist
    rw [childlist_linkChild, if_pos rfl, hlist] at hlist'
    rw [innerExpand_of_expanded hexp] at heq'
    refine ⟨.inr ?_, fun b => ?_, fun t ht x hx => ?_⟩
    · rw [hlist]
      exact Option.some_ne_none _
    · rw [heq', hlist']
      exact fun h => nomatch h
    · cases ht
      rw [heq', hlist'] at hx
      rcases List.mem_cons.mp hx with rfl | hx
      · rcases hd with rfl | rfl
        · exact hhdr
        · exact (type_evaluateSize hdr).trans hhdr
      · rw [List.mem_singleton.mp hx]
        rcases hd' with rfl | rfl
        · rfl
        · exact type_evaluateSize _
  · exact ⟨.inl rfl, hnone, fun t ht => nomatch ht⟩
  · exact ⟨.inl rfl, hnone, fun t ht => nomatch ht⟩

/-- Whatever is written of a node begins with its tag and its type. -/
theorem serialize_tagWord {n : KnvNode} {len : ℕ} {out : Bytes} (h : n.serialize len true = .ok out) :
    ∃ rest, out = pbVint (pbTagWord n.type n.tag) ++ rest := by
  cases hf : (n.isFolded || n.isClean) with
  | true =>
    obtain ⟨-, rfl⟩ := (serialize_value_iff (valid_of_serialize h) hf).mp h
    exact ⟨_, rfl⟩
  | false =>
    obtain ⟨bs, rfl, -⟩ := serialize_body (fun x _ => roomy x) (fun x _ => roomy x) hf h
    have htype := type_of_not_folded (Bool.or_eq_false_iff.mp hf).1
    rw [head, if_pos rfl, stringHead, htype, List.append_assoc]
    exact ⟨_, rfl⟩

theorem ntohs_append (x y z : UInt8) (rest : Bytes) : ntohs ([x, y, z] ++ rest) = ofLeBytes [y, x] := rfl

/-- The first two bytes of a body say whether it is a string. -/
theorem ntohs_tagWord (type : PbType) (rest : Bytes) :
    ntohs (pbVint (pbTagWord type knvPkgBdyTag) ++ rest) = stxKnvBdy ↔ type = .string := by
  have hword : pbVint (pbTagWord .varint knvPkgBdyTag) = [0xe8, 0xda, 0x01] ∧
      pbVint (pbTagWord .fixed64 knvPkgBdyTag) = [0xe9, 0xda, 0x01] ∧
      pbVint (pbTagWord .string knvPkgBdyTag) = [0xea, 0xda, 0x01] ∧
      pbVint (pbTagWord .fixed32 knvPkgBdyTag) = [0xed, 0xda, 0x01] := by decide
  obtain ⟨hvarint, hfixed64, hstring, hfixed32⟩ := hword
  cases type with
  | varint =>
    rw [hvarint, ntohs_append]
    decide
  | fixed64 =>
    rw [hfixed64, ntohs_append]
    decide
  | string =>
    rw [hstring, ntohs_append]
    decide
  | fixed32 =>
    rw [hfixed32, ntohs_append]
    decide

/-- What `EncodeOidb` makes of a body. -/
theorem encodeOidbTree_some {p : KnvProtocol} {b : KnvNode} {s : Bytes} (hsz : bodySize (some b) ≠ 0)
    (hs : p.encodeOidbTree (some b) = .ok s) : ∃ hdr bdySz rest, hdr.length + bdySz + 10 < 2 ^ 31 ∧
      s = oidbFrame hdr bdySz (pbVint (pbTagWord b.type b.tag) ++ rest) := by
  unfold encodeOidbTree at hs
  cases hhdr : p.headerValue with
  | error e =>
    rw [hhdr] at hs
    cases hs
  | ok hdr =>
    rw [hhdr] at hs
    simp only [if_neg hsz] at hs
    by_cases hfit : 2 ^ 31 ≤ hdr.length + bodySize (some b) + 10
    · rw [if_pos hfit] at hs
      cases hs
    · rw [if_neg hfit] at hs
      cases hbdy : b.serialize (bodySize (some b)) true with
      | error e =>
        rw [hbdy] at hs
        cases hs
      | ok bdy =>
        rw [hbdy] at hs
        cases hs
        obtain ⟨rest, rfl⟩ := serialize_tagWord hbdy
        exact ⟨hdr, _, rest, Nat.not_le.mp hfit, rfl⟩

/-- **What `EncodeOidbWithBody` encodes is decoded without its body**: there is no current body, or it is another one. -/
theorem getBody_encodeOidbWithBody {p : KnvProtocol} {b c : KnvNode} {s : Bytes} (htag : b.tag = knvPkgBdyTag)
    (hsz : bodySize (some b) ≠ 0) (hs : p.encodeOidbWithBody b = .ok s) (hc : (decode s).getBody = some c) :
    c.type ≠ b.type := by
  have hframe : ∃ hdr bdySz tail, hdr.length + bdySz + 10 < 2 ^ 31 ∧
      s = oidbFrame hdr bdySz (pbVint (pbTagWord b.type b.tag) ++ tail) := by
    unfold encodeOidbWithBody at hs
    split at hs
    · exact encodeOidbTree_some hsz hs
    · cases hs
  obtain ⟨hdr, bdySz, tail, hfit, rfl⟩ := hframe
  obtain ⟨bdy, hbdy⟩ : ∃ bdy, bdy = pbVint (pbTagWord b.type b.tag) ++ tail := ⟨_, rfl⟩
  rw [← hbdy] at hc
  have hhead : (oidbFrame hdr bdySz bdy).headD 0 = stxIpv6Pb := rfl
  rw [decode, ofBuf, if_pos hhead] at hc
  obtain ⟨rest, hrest⟩ : ∃ rest, rest = List.replicate (bdySz - bdy.length) 0 ++ [etxIpv6Pb] := ⟨_, rfl⟩
  have hnone : ∀ e : String, ({ errmsg := e } : KnvProtocol).initProtocol.getBody ≠ some c := fun e h => by
    cases h
  unfold initFromOidbPkg at hc
  rw [oidbFrame, ← hrest, drop_one_oidbFront, drop_five_oidbFront, ntohl_htonl (by omega), ntohl_htonl (by omega)] at hc
  split at hc
  · exact absurd hc (hnone _)
  simp only at hc
  split at hc
  · exact absurd hc (hnone _)
  split at hc
  · exact absurd hc (hnone _)
  split at hc
  · exact absurd hc (hnone _)
  next h hh =>
  rw [drop_header_oidbFront] at hc
  split at hc
  · obtain ⟨hset, hbody⟩ := initBodies_spec h ((bdy ++ rest).take bdySz)
    exact absurd hbody (getBody_initProtocol hset (fun b h => by rw [hbody] at h; cases h) hc).1
  · next hstx =>
    cases hh
    obtain ⟨hset, hbody, hstr⟩ :=
      @initCompat_spec (initNode knvPkgHdrTag .string
        (some { str := ((oidbFront hdr bdySz bdy ++ rest).drop 9).take hdr.length })) rfl
        ((bdy ++ rest).take bdySz)
    obtain ⟨-, t, ht, x, hx, htype⟩ := getBody_initProtocol hset hbody hc
    intro htb
    refine hstx ?_
    rw [hbdy, htag, List.append_assoc, ntohs_tagWord, ← htb, ← htype]
    exact hstr t ht x hx

/-! ### The round trip -/

/-- What a decoded packet is to say of a packet with return code 0 and bodies. -/
structure Reread (cmd subcmd seq : UInt32) (bodies : List KnvNode) (q : KnvProtocol) : Prop where
  valid : q.isValid = true
  cmd : q.cmd = cmd
  subcmd : q.subcmd = subcmd
  seq : q.seq = seq.toUInt64
  retcode : q.retcode = 0
  /-- `GetBody` gives the first body. -/
  body : ∃ b ∈ bodies.head?, ∃ c, q.getBody = some c ∧ Alike b c
  /-- `GetFirstRequest` and `GetNextRequest` give all bodies in order. -/
  requests : ∃ cs, q.Requests cs ∧ List.Forall₂ Alike bodies cs

/-- **No packet comes back whole.** Whatever a packet with return code 0 holds, what `EncodeOidb` or
`EncodeOidbWithBody` encodes of it is not decoded as it should be. -/
theorem not_reread_of_encodeOidb {p : KnvProtocol} (hret : p.retcode = 0) (cmd subcmd seq : UInt32) :
    (∀ bodies s, p.encodeOidb = .ok s → ¬Reread cmd subcmd seq bodies (decode s)) ∧
      ∀ b s, b.tag = knvPkgBdyTag → bodySize (some b) ≠ 0 → p.encodeOidbWithBody b = .ok s →
        ¬Reread cmd subcmd seq [b] (decode s) := by
  constructor
  · intro bodies s hs hread
    exact Bool.false_ne_true ((not_isValid_encodeOidb hret hs).symm.trans hread.valid)
  · intro b s htag hsz hs hread
    obtain ⟨b', hb', c, hc, halike⟩ := hread.body
    cases hb'
    cases halike with
    | mk hfield _ _ =>
      have htype : b.type = c.type := congrArg PbField.type hfield
      exact getBody_encodeOidbWithBody htag hsz hs hc htype.symm

/-- A body that holds a number. -/
def numberBody : KnvNode :=
  ((Op.insertChild (initNode 11 .varint (some { i64 := 5 })) true true).run {} (initNode knvPkgBdyTag .string none)).node

/-- A packet with that body. -/
def numberPacket : KnvProtocol := ((create 1 2 3).addBody numberBody true).1

theorem prepared_numberPacket : Prepared 1 2 3 none none [numberBody] numberPacket := by
  have hleaf : Assembled (initNode 11 .varint (some { i64 := 5 })) :=
    .new ⟨by decide, by decide⟩ (fun hne => absurd rfl hne) (show KnvNode.new 11 .varint .string none _ = .ok _ from rfl)
  have htree : Assembled (initNode knvPkgBdyTag .string none) :=
    .newTree ⟨by decide, by decide⟩ (show newTree knvPkgBdyTag none = .ok _ from rfl)
  have hbody : Assembled numberBody := by
    refine .insertChild htree hleaf (fun s hs => absurd hs List.not_mem_nil) (fun t ht hexp => ?_)
      (show (Op.insertChild _ true true).runAt [] _ = some _ from rfl) rfl
    cases ht
    cases hexp
  exact Prepared.create.addBody hbody rfl

theorem exists_of_toBool {r : Except KnvErr Bytes} (h : r.toBool = true) : ∃ s, r = .ok s := by
  cases r with
  | error e => cases h
  | ok s => exact ⟨s, rfl⟩

/-- Both encoders encode the packet. -/
theorem encodes_numberPacket :
    (∃ s, numberPacket.encodeOidb = .ok s) ∧ ∃ s, numberPacket.encodeOidbWithBody numberBody = .ok s :=
  ⟨exists_of_toBool (by decide +kernel), exists_of_toBool (by decide +kernel)⟩

/-- Both encoders encode the packet, and it comes back from neither. -/
theorem not_reread_of_encodeOidb_number : ∃ s s', numberPacket.encodeOidb = .ok s ∧
    numberPacket.encodeOidbWithBody numberBody = .ok s' ∧ ¬Reread 1 2 3 [numberBody] (decode s) ∧
    ¬Reread 1 2 3 [numberBody] (decode s') := by
  have hret : numberPacket.retcode = 0 := (holds_of_prepared prepared_numberPacket).2.1.retcode
  obtain ⟨hall, hone⟩ := not_reread_of_encodeOidb hret 1 2 3
  obtain ⟨⟨s, hs⟩, s', hs'⟩ := encodes_numberPacket
  exact ⟨s, s', hs, hs', hall _ s hs, hone _ s' rfl (by decide) hs'⟩

/-- The packet that is decoded is not the one that was encoded. -/
theorem not_oidb_round_trip : ¬∀ cmd subcmd seq bodies p s, Prepared cmd subcmd seq none none bodies p → bodies ≠ [] →
    p.encodeOidb = .ok s → Reread cmd subcmd seq bodies (decode s) := by
  intro h
  obtain ⟨⟨s, hs⟩, -⟩ := encodes_numberPacket
  have hvalid := (h 1 2 3 _ _ s prepared_numberPacket (List.cons_ne_nil _ _) hs).valid
  have hret : numberPacket.retcode = 0 := (holds_of_prepared prepared_numberPacket).2.1.retcode
  exact Bool.false_ne_true ((not_isValid_encodeOidb hret hs).symm.trans hvalid)

end KnvProtocol

end KnvProto
