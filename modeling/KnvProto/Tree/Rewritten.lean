import KnvProto.Tree.Looked

/-!
# Nodes that are written again

A node on the path to an edited one loses its value, and is written as its metas and children. What is asked of it, so
that it is written in the bytes it says and read back as the same node (`Relisted.reads`), and what its parent hears of
(`resized_up`).

## The model

`Reads` is a node that is written as a field and is the same as the node that is made of the field. `Rewrites` is what
is asked of a node before the lists below it change, and `Relisted` is the node after that.
-/

namespace KnvProto

open PathEdit

namespace KnvNode

variable {n m l q c c' x y : KnvNode} {f g : PbField} {fs gs : List PbField} {t : UInt32} {v : UInt64} {pl : Place}
  {pk k : Bool} {d : ℕ}

/-! ### Nodes that are written and read back -/

/-- The node is written as the field, and what is made of the field is the same node. -/
structure Reads (pk k : Bool) (x : KnvNode) (f : PbField) : Prop where
  wire : Wire x f
  tag : TagOk f.tag
  val : ∀ v, x.keptVal = some v → f.val = v
  same : f.val.str.length < 2 ^ 64 → ∀ sz a, SameTree pk x ((ofField (f, sz) k).at' a)

/-- The node has taken as many bytes as it is written with, and the wire holds its tag. -/
structure Minimal (x : KnvNode) : Prop where
  tag : TagOk x.tag
  size : x.evalSz = pbEvalFieldLength x.tag x.type x.val

instance (x : KnvNode) : Decidable (Minimal x) :=
  decidable_of_iff (TagOk x.tag ∧ x.evalSz = pbEvalFieldLength x.tag x.type x.val)
    ⟨fun h => ⟨h.1, h.2⟩, fun h => ⟨h.tag, h.size⟩⟩

theorem isValid_of_tagOk (h : TagOk x.tag) : x.isValid = true := by
  refine bne_iff_ne.mpr fun h0 => ?_
  rw [h0] at h
  exact absurd h.1 (by decide)

/-- A node that has only been looked into is copied. -/
theorem Looked.reads (h : Looked pk k x) (hmin : Minimal x) : Reads pk k x (PbField.norm ⟨x.tag, x.type, x.val⟩) := by
  have hp := h.here
  have hvalue : (x.isFolded || x.isClean) = true := by
    have hkept := hp.keptVal
    by_contra hf
    rw [keptVal, if_neg hf] at hkept
    cases hkept
  have hwire : Wire x (PbField.norm ⟨x.tag, x.type, x.val⟩) := by
    have hv := isValid_of_tagOk hmin.tag
    refine ⟨rfl, rfl, norm_norm _, ?_, fun len out => ?_⟩
    · rw [hmin.size, pbEvalFieldLength_eq, encode_norm]
    · rw [encode_norm]
      exact serialize_value_iff hv hvalue
  refine ⟨hwire, hmin.tag, fun v hv => ?_, fun _ sz a => ?_⟩
  · rw [hp.keptVal] at hv
    exact Option.some.inj hv
  · exact h.same.trans (sameTree_ofField (f := ⟨x.tag, x.type, x.val⟩) (norm_norm _).symm pk k 1 sz 0 a)

/-- So is a node with nothing below it. -/
theorem reads_bare (hms : x.metalist = []) (hcs : x.childlist = []) (hstr : x.type = .string → x.val.str = [])
    (hkey : x.key = {}) (hmin : Minimal x) (pk k : Bool) : Reads pk k x (PbField.norm ⟨x.tag, x.type, x.val⟩) := by
  have hfold := isFolded_of_nil hms hcs
  have hv := isValid_of_tagOk hmin.tag
  have hkept := keptVal_of_folded hfold
  refine ⟨⟨rfl, rfl, norm_norm _, ?_, fun len out => ?_⟩, hmin.tag, fun v hv => ?_, fun _ sz a d => ?_⟩
  · rw [hmin.size, pbEvalFieldLength_eq, encode_norm]
  · rw [encode_norm]
    exact serialize_value_iff hv (by rw [hfold, Bool.true_or])
  · rw [hkept] at hv
    exact Option.some.inj hv
  · cases d with
    | zero => exact trivial
    | succ d =>
      have hnone : x.type = .string → pbBegin x.val.str = none := fun ht => by rw [hstr ht, pbBegin_nil]
      have hbelow : ∀ {y : KnvNode}, y.metalist = [] → y.childlist = [] → y.type = x.type →
          (x.type = .string → y.val.str = x.val.str) →
          (y.innerExpand pk false).metalist = [] ∧ (y.innerExpand pk false).childlist = [] := by
        intro y hyms hycs hytype hyval
        refine innerExpand_rule (P := fun n' => n'.metalist = [] ∧ n'.childlist = []) (fun _ => ⟨hyms, hycs⟩)
          fun n' _ hn' => ?_
        cases hn' with
        | leaf _ => exact ⟨rfl, rfl⟩
        | cut _ _ _ _ _ _ _ => exact ⟨rfl, rfl⟩
        | message _ _ _ hty _ hb _ =>
          have ht := hytype.symm.trans hty
          rw [hyval ht, hnone ht] at hb
          cases hb
      obtain ⟨hxm, hxc⟩ := hbelow hms hcs rfl fun _ => rfl
      obtain ⟨hym, hyc⟩ :=
        hbelow (y := (ofField (PbField.norm ⟨x.tag, x.type, x.val⟩, sz) k).at' a) rfl rfl rfl fun ht => by
        show (PbVal.pick x.type (x.val.norm x.type)).str = x.val.str
        rw [ht]
        rfl
      refine ⟨rfl, rfl, ?_, fun v hv => ?_, ?_, ?_⟩
      · have hkey' := key_initNode x.tag x.type (some (x.val.norm x.type)) sz k
        rw [hkey]
        refine (hkey'.trans (if_neg fun hc => hc.2.1 ?_)).symm
        show (PbVal.pick x.type (x.val.norm x.type)).str = []
        rw [hc.1]
        exact hstr hc.1
      · rw [keptVal_ofField, norm_norm]
        exact hkept.symm.trans hv
      · rw [hxm, hym]
        exact .nil
      · rw [hxc, hyc]
        exact .nil

/-- The nodes that are read back of a list. -/
theorem sameTo_parsed {l : List KnvNode} {fs : List PbField} {b : Bool} (hl : List.Forall₂ (Reads pk b) l fs) (d : ℕ) :
    (∀ f ∈ fs, decide (f.tag ≤ ucMaxMetaNum) = b ∧ f.val.str.length < 2 ^ 64) → ∀ a,
      List.Forall₂ (SameTo d pk) l (parsed false a (fs.map sized)) := by
  induction hl with
  | nil => exact fun _ _ => .nil
  | @cons x f l fs hx _ ih =>
    intro h a
    obtain ⟨htag, hlen⟩ := h f (List.mem_cons_self ..)
    have hsame := hx.same hlen f.encode.length a d
    rw [List.map_cons, parsed]
    refine .cons ?_ (ih (fun g hg => h g (List.mem_cons_of_mem _ hg)) (a + 1))
    show SameTo d pk x ((ofField (sized f) (decide (f.tag ≤ ucMaxMetaNum) || false)).at' a)
    rw [htag, Bool.or_false]
    exact hsame

/-- The key that fields begin with. -/
def leadingKey : List PbField → KnvKey
  | f :: _ => if f.tag = 1 then KnvKey.init f.type (some f.val) else {}
  | [] => {}

theorem leadingKey_ne (h : leadingKey fs ≠ {}) :
    ∃ f gs, fs = f :: gs ∧ f.tag = 1 ∧ leadingKey fs = KnvKey.init f.type (some f.val) := by
  cases fs with
  | nil => exact absurd rfl h
  | cons f gs =>
    by_cases htag : f.tag = 1
    · exact ⟨f, gs, rfl, htag, if_pos htag⟩
    · exact absurd (if_neg htag) h

theorem Reads.norm {l : List KnvNode} {b : Bool} (hl : List.Forall₂ (Reads pk b) l fs) :
    (∀ f ∈ fs, f.norm = f ∧ TagOk f.tag) ∧ List.Forall₂ Wire l fs := by
  induction hl with
  | nil => exact ⟨fun _ hf => absurd hf List.not_mem_nil, .nil⟩
  | cons hx _ ih =>
    refine ⟨fun f hf => ?_, .cons hx.wire ih.2⟩
    rcases List.mem_cons.mp hf with rfl | hf
    · exact ⟨hx.wire.norm, hx.tag⟩
    · exact ih.1 f hf

/-- The key that a node writes itself is its first meta. -/
theorem exists_afterKey (hms : List.Forall₂ (Reads pk true) q.metalist fs) (hno : q.noKey = k)
    (hkey : q.key = if k then {} else leadingKey fs)
    (hshort : q.hasKey = true → ∀ f ∈ fs.head?, f.type = .string → f.val.str.length < 2 ^ 16) :
    ∃ ms, List.Forall₂ Wire (metasAfterKey q.hasKey q.metalist) ms ∧ q.keyFields ++ ms = fs := by
  obtain ⟨hok, hwire⟩ := Reads.norm hms
  cases hhas : q.hasKey with
  | false =>
    have hsame : metasAfterKey false q.metalist = q.metalist := by cases q.metalist <;> rfl
    exact ⟨fs, by rw [hsame]; exact hwire, by rw [keyFields, hhas, if_neg Bool.false_ne_true, List.nil_append]⟩
  | true =>
    have hhas' := hhas
    rw [hasKey, hno, Bool.and_eq_true, Bool.not_eq_true'] at hhas'
    rw [hhas'.1, if_neg Bool.false_ne_true] at hkey
    have hne : leadingKey fs ≠ {} := fun h0 => by
      rw [hkey, h0] at hhas'
      exact absurd hhas'.2 (by simp)
    obtain ⟨f, fs', rfl, hone, hinit⟩ := leadingKey_ne hne
    obtain ⟨x, xs, hx, hxs, hlist⟩ := List.forall₂_cons_right_iff.mp hwire
    have hfield : q.keyField.norm = f := by
      have hval := KnvKey.getValue_init f.type f.val (hshort hhas f rfl)
      have hnorm := (hok f (List.mem_cons_self ..)).1
      rw [keyField, hkey, hinit, hval, KnvKey.type_init]
      conv_rhs => rw [← hnorm, ← hnorm]
      rw [PbField.norm, PbField.norm, PbField.norm, hone]
    refine ⟨fs', ?_, by rw [keyFields, hhas, if_pos rfl, hfield, List.singleton_append]⟩
    rw [hlist, metasAfterKey, if_pos (by rw [← hx.tag, hone]; rfl)]
    exact hxs

/-- The fields of nodes that are read back are as long as the wire can hold. -/
theorem ok_of_reads {b b' : Bool} {l l' : List KnvNode} (hl : List.Forall₂ (Reads pk b) l fs)
    (hl' : List.Forall₂ (Reads pk b') l' gs) (hlen : (encodeAll (fs ++ gs)).length < 2 ^ 64) :
    ∀ f ∈ fs ++ gs, f.Ok ∧ f.norm = f := by
  intro f hf
  obtain ⟨hn, htag⟩ : f.norm = f ∧ TagOk f.tag :=
    (List.mem_append.mp hf).elim ((Reads.norm hl).1 f) ((Reads.norm hl').1 f)
  obtain ⟨s, r, hsr⟩ := List.append_of_mem hf
  have hstr := length_norm_le f
  have hle : f.encode.length ≤ (encodeAll (fs ++ gs)).length := by
    rw [hsr, encodeAll_append, encodeAll_cons, List.length_append, List.length_append]
    omega
  rw [hn] at hstr
  exact ⟨⟨htag, Nat.lt_of_le_of_lt (Nat.le_trans hstr hle) hlen⟩, hn⟩

/-- **A node that is written again** as its metas and children is read back as them, if its key is the one they begin
with. -/
theorem reads_again (htag : TagOk q.tag) (ht : q.type = .string) (hexp : q.expanded = true)
    (hdirty : q.subnodeDirty = true)
    (hev : 0 ≤ q.evalSz) (hadd : AddsUp 0 q) (hplace : ¬(q.tag = 1 ∧ pk = true))
    (hne : q.metalist ≠ [] ∨ q.childlist ≠ []) (hms : List.Forall₂ (Reads (q.key.bytes != []) true) q.metalist fs)
    (hcs : List.Forall₂ (Reads (q.key.bytes != []) false) q.childlist gs) (hmt : ∀ x ∈ q.metalist, x.tag ≤ ucMaxMetaNum)
    (hct : ∀ x ∈ q.childlist, ¬x.tag ≤ ucMaxMetaNum) (hno : q.noKey = k) (hkey : q.key = if k then {} else leadingKey fs)
    (hshort : q.hasKey = true → ∀ f ∈ fs.head?, f.type = .string → f.val.str.length < 2 ^ 16) :
    Reads pk k q ⟨q.tag, .string, { str := encodeAll (fs ++ gs) }⟩ := by
  have hmw := (Reads.norm hms).2
  have hcw := (Reads.norm hcs).2
  have hvalid := isValid_of_tagOk htag
  have hfold : q.isFolded = false := isFolded_of_below ht hexp hne
  have hclean : q.isClean = false := by simp [isClean, hdirty]
  have hagain : (q.isFolded || q.isClean) = false := by rw [hfold, hclean, Bool.or_false]
  have hacc : Accurate q := by
    refine ⟨hvalid, fun hf => absurd (hagain.symm.trans hf) Bool.false_ne_true, fun _ => ⟨?_, hadd.sz⟩⟩
    have := hadd.val
    omega
  obtain ⟨ms, hmsw, hall⟩ := exists_afterKey hms hno hkey hshort
  have hbody : q.body ms gs = encodeAll (fs ++ gs) := by rw [body_eq, hall]
  have hwire := wire_again hacc hev hagain hmsw hcw
  rw [hbody] at hwire
  refine ⟨hwire, htag, fun v hv => ?_, fun hlen sz a d => ?_⟩
  · rw [keptVal, if_neg (by rw [hagain]; exact Bool.false_ne_true)] at hv
    cases hv
  cases d with
  | zero => exact trivial
  | succ d =>
    have hok := ok_of_reads hms hcs hlen
    have hfm : ∀ f ∈ fs, f.tag ≤ ucMaxMetaNum := (forall_tag (P := fun t => t ≤ ucMaxMetaNum) hmw).mpr hmt
    have hfc : ∀ f ∈ gs, ¬f.tag ≤ ucMaxMetaNum := (forall_tag (P := fun t => ¬t ≤ ucMaxMetaNum) hcw).mpr hct
    have hnil : fs ++ gs ≠ [] := by
      intro hnil
      rw [List.append_eq_nil_iff] at hnil
      rw [hnil.1, List.forall₂_nil_right_iff] at hms
      rw [hnil.2, List.forall₂_nil_right_iff] at hcs
      exact hne.elim (fun h => h hms) fun h => h hcs
    obtain ⟨f₀, rest, hcons⟩ := List.exists_cons_of_ne_nil hnil
    have hf₀ := hok f₀ (hcons ▸ List.mem_cons_self ..)
    have hvne : encodeAll (fs ++ gs) ≠ [] := by
      rw [hcons, encodeAll_cons]
      exact List.append_ne_nil_of_left_ne_nil (List.ne_nil_of_length_pos (length_encode_pos' f₀)) _
    have hzero : q.tag ≠ 0 := bne_iff_ne.mp hvalid
    obtain ⟨-, -, hmetas, hchildren⟩ := innerExpand_fields
      (n := (ofField (⟨q.tag, .string, { str := encodeAll (fs ++ gs) }⟩, sz) k).at' a) (leaf_initNode hzero ..) rfl
      (shape_at'.mpr (shape_initNode ..)) (indexed_at'.mpr (indexed_initNode ..)) rfl hnil hok hfm hfc pk hplace
    refine ⟨rfl, ht, ?_, fun v hv => ?_, ?_, ?_⟩
    · have hof : KnvKey.ofBytes (encodeAll (fs ++ gs)) = leadingKey fs := by
        rw [hcons, encodeAll_cons, ofBytes_encode hf₀.1 hf₀.2]
        cases fs with
        | nil =>
          rw [leadingKey]
          refine if_neg fun hone => hfc f₀ ?_ (by rw [hone]; decide)
          rw [List.nil_append] at hcons
          exact hcons ▸ List.mem_cons_self ..
        | cons f fs =>
          obtain rfl : f = f₀ := (List.cons.inj hcons).1
          rfl
      have hnew := key_initNode q.tag .string (some { str := encodeAll (fs ++ gs) }) sz k
      refine Eq.trans ?_ hnew.symm
      rw [hkey, ← hof]
      cases k with
      | true => simp
      | false => exact (if_pos ⟨rfl, hvne, rfl⟩).symm
    · rw [keptVal, if_neg (by rw [hagain]; exact Bool.false_ne_true)] at hv
      cases hv
    · rw [innerExpand_of_expanded hexp, hmetas]
      exact sameTo_parsed hms d (fun f hf => ⟨decide_eq_true (hfm f hf),
        (hok f (List.mem_append_left _ hf)).1.2⟩) _
    · rw [innerExpand_of_expanded hexp, hchildren]
      exact sameTo_parsed hcs d (fun f hf => ⟨decide_eq_false (hfc f hf),
        (hok f (List.mem_append_right _ hf)).1.2⟩) _

/-! ### Nodes that are written again -/

/-- What is asked of a node that is written again, when `stay` are the nodes below it that stay as they are and the
others grow by `d` bytes. -/
structure Rewrites (pl : Place) (q : KnvNode) (stay : List KnvNode) (d : ℤ) : Prop where
  /-- The wire holds its tag. -/
  tag : TagOk q.tag
  /-- It is not taken for a key. -/
  place : ¬(q.tag = 1 ∧ pl.parentKeyed = true)
  /-- Its value holds its metas and children, and nothing else. -/
  sum : q.evalValSz = (q.metalist.map (·.evalSz)).sum + (q.childlist.map (·.evalSz)).sum
  /-- Its header is the shortest, or is reckoned again. -/
  head : d ≠ 0 ∨ q.evalSz = pbEvalLength q.tag .string 0 q.evalValSz.toNat
  /-- What stays has taken as many bytes as it is written with. -/
  minimal : ∀ x ∈ stay, Minimal x
  /-- A first meta with tag 1 stays, and is the key of the node, not too long for one. -/
  key : pl.isMeta = false → ∀ x ∈ q.metalist.head?, x.tag = 1 →
    x ∈ stay ∧ q.key = KnvKey.init x.type (some x.val) ∧
      (q.key.bytes ≠ [] → x.type = .string → x.val.str.length < 2 ^ 16)

/-- The node `q` with other lists, which are `d` bytes longer. -/
structure Relisted (pl : Place) (q q' : KnvNode) (d : ℤ) : Prop where
  tag : q'.tag = q.tag
  type : q'.type = q.type
  key : q'.key = q.key
  noKey : q'.noKey = q.noKey
  expanded : q'.expanded = q.expanded
  evalSz : q'.evalSz = q.evalSz
  evalValSz : q'.evalValSz = q.evalValSz
  sum : (q'.metalist.map (·.evalSz)).sum + (q'.childlist.map (·.evalSz)).sum =
    (q.metalist.map (·.evalSz)).sum + (q.childlist.map (·.evalSz)).sum + d
  metas : ∀ x ∈ q'.metalist, x.tag ≤ ucMaxMetaNum ∧ ∃ f, Reads (q.key.bytes != []) true x f
  children : ∀ x ∈ q'.childlist, ¬x.tag ≤ ucMaxMetaNum ∧ ∃ f, Reads (q.key.bytes != []) false x f
  /-- The key stays where it is. -/
  first : pl.isMeta = false → ∀ x, x.tag = 1 → (x ∈ q'.metalist.head? ↔ x ∈ q.metalist.head?)

/-- A key is the first meta. -/
theorem Rewrites.first {stay : List KnvNode} {e : ℤ} (h : Rewrites pl q stay e) (hq : Parsed k q) (ht : q.type = .string)
    (hkey : q.key ≠ {}) : ∃ x ∈ q.metalist.head?, x.tag = 1 ∧ q.key = KnvKey.init x.type (some x.val) := by
  have hne : q.metalist ≠ [] ∨ q.childlist ≠ [] := by
    by_contra hnil
    rw [not_or, not_not, not_not] at hnil
    have hsum := h.sum
    rw [hq.len ht, hnil.1, hnil.2] at hsum
    have hstr : q.val.str = [] := List.eq_nil_of_length_eq_zero (by simpa using hsum)
    rw [hq.key, hstr, KnvKey.ofBytes, pbBegin_nil, ite_self] at hkey
    exact hkey rfl
  obtain ⟨x, xs, hlist, hone, hinit⟩ := hq.first hkey hne
  exact ⟨x, by rw [hlist]; rfl, hone, hinit⟩

/-- The sizes of a node whose lists have grown by `e` bytes, when it has heard of it. -/
theorem addsUp_updateEvalSz {e : ℤ} (ht : n.type = .string)
    (hval : n.evalValSz + e = n.keyLength + ((metasAfterKey n.hasKey n.metalist).map (·.evalSz)).sum +
      (n.childlist.map (·.evalSz)).sum)
    (hhead : e ≠ 0 ∨ n.evalSz = pbEvalLength n.tag .string 0 n.evalValSz.toNat) : AddsUp 0 (n.updateEvalSz e).1 := by
  by_cases he : e = 0
  · rw [KnvNode.updateEvalSz, if_pos he]
    exact ⟨by rw [he] at hval; exact hval, hhead.resolve_left (not_not_intro he)⟩
  · rw [KnvNode.updateEvalSz, if_neg he]
    refine ⟨?_, ?_⟩
    · rw [Int.add_zero]
      exact hval
    · simp only [ht]
      rw [pbEvalLength_string n.tag _ 0]

/-- The first field is that of the first meta. -/
theorem head?_forall₂ {R : KnvNode → PbField → Prop} {l : List KnvNode} (h : List.Forall₂ R l fs) :
    (∀ f ∈ fs.head?, ∃ x ∈ l.head?, R x f) ∧ ∀ x ∈ l.head?, ∃ f ∈ fs.head?, R x f := by
  cases h with
  | nil => exact ⟨fun _ hf => absurd hf (by simp), fun _ hx => absurd hx (by simp)⟩
  | cons hx _ =>
    refine ⟨fun f hf => ⟨_, rfl, ?_⟩, fun x hx' => ⟨_, rfl, ?_⟩⟩
    · obtain rfl := Option.some.inj hf
      exact hx
    · obtain rfl := Option.some.inj hx'
      exact hx

theorem leadingKey_eq (fs : List PbField) : leadingKey fs = match fs.head? with
    | some f => if f.tag = 1 then KnvKey.init f.type (some f.val) else {}
    | none => {} := by
  cases fs <;> rfl

/-- A first meta with tag 1 is the key of the node, and is written as it. -/
structure KeyOf (q x : KnvNode) : Prop where
  tag : x.tag = 1
  minimal : Minimal x
  looked : Looked (q.key.bytes != []) true x
  init : q.key = KnvKey.init x.type (some x.val)
  short : q.key.bytes ≠ [] → x.type = .string → x.val.str.length < 2 ^ 16

section

variable {stay : List KnvNode} {e : ℤ} (hl : Relisted pl q c e) (h : Rewrites pl q stay e)
  (hq : Looked pl.parentKeyed pl.isMeta q) (ht : q.type = .string)

include hl h hq

theorem Relisted.keyOf (hm : pl.isMeta = false) (hx : x ∈ c.metalist.head?) (hone : x.tag = 1) : KeyOf q x := by
  have hx' := (hl.first hm x hone).mp hx
  obtain ⟨hstay, hinit, hshort⟩ := h.key hm x hx' hone
  exact ⟨hone, h.minimal x hstay, hq.metas x (List.mem_of_mem_head? hx'), hinit, hshort⟩

/-- The field of the key has its type and its value. -/
theorem Relisted.keyField (hm : pl.isMeta = false) (hx : x ∈ c.metalist.head?) (hf : Reads (q.key.bytes != []) true x f)
    (hone : f.tag = 1) : KeyOf q x ∧ f.type = x.type ∧ f.val = x.val.norm x.type := by
  have hk := hl.keyOf h hq hm hx (hf.wire.tag.symm.trans hone)
  exact ⟨hk, hf.wire.type, hf.val _ hk.looked.here.keptVal⟩

include ht

theorem Relisted.keyed (hm : pl.isMeta = false) (hne : q.key ≠ {}) : ∃ x ∈ c.metalist.head?, KeyOf q x := by
  obtain ⟨x, hx, hone, -⟩ := h.first hq.here ht hne
  have hx' := (hl.first hm x hone).mpr hx
  exact ⟨x, hx', hl.keyOf h hq hm hx' hone⟩

/-- Where a key is written, it is the first meta. -/
theorem Relisted.of_hasKey (hhas : c.hasKey = true) :
    pl.isMeta = false ∧ q.key.bytes ≠ [] ∧ ∃ x ∈ c.metalist.head?, KeyOf q x := by
  rw [(keyLength_congr hl.key hl.noKey).2, hasKey, hq.noKey_eq ht, Bool.and_eq_true, Bool.not_eq_true', bne_iff_ne]
    at hhas
  exact ⟨hhas.1, hhas.2, hl.keyed h hq ht hhas.1 fun h0 => hhas.2 (by rw [h0])⟩

/-- The key is the one that the fields begin with. -/
theorem Relisted.key_eq (hfs : List.Forall₂ (Reads (q.key.bytes != []) true) c.metalist fs) :
    c.key = if pl.isMeta then {} else leadingKey fs := by
  rw [hl.key]
  cases hm : pl.isMeta with
  | true => rw [hq.here.key, hq.noKey_eq ht, hm, if_pos rfl, if_pos rfl]
  | false =>
    rw [if_neg Bool.false_ne_true]
    by_cases hone : ∃ f ∈ fs.head?, f.tag = 1
    · obtain ⟨f, hf, hone⟩ := hone
      obtain ⟨x, hx, hxf⟩ := (head?_forall₂ hfs).1 f hf
      obtain ⟨hk, htype, hval⟩ := hl.keyField h hq hm hx hxf hone
      have hf' : fs.head? = some f := hf
      rw [leadingKey_eq, hf', hk.init]
      simp only [hone, if_true]
      rw [htype, hval, init_norm]
    · have hnone : leadingKey fs = {} := by
        by_contra hne
        obtain ⟨f, gs, rfl, hone', -⟩ := leadingKey_ne hne
        exact hone ⟨f, rfl, hone'⟩
      rw [hnone]
      by_contra hne
      obtain ⟨x, hx, hk⟩ := hl.keyed h hq ht hm hne
      obtain ⟨f, hf, hxf⟩ := (head?_forall₂ hfs).2 x hx
      exact hone ⟨f, hf, hxf.wire.tag.trans hk.tag⟩

theorem Relisted.short (hfs : List.Forall₂ (Reads (q.key.bytes != []) true) c.metalist fs) (hhas : c.hasKey = true) :
    ∀ f ∈ fs.head?, f.type = .string → f.val.str.length < 2 ^ 16 := by
  intro f hf hft
  obtain ⟨hm, hne, y, hy, hk⟩ := hl.of_hasKey h hq ht hhas
  obtain ⟨x, hx, hxf⟩ := (head?_forall₂ hfs).1 f hf
  obtain rfl : x = y := Option.some.inj (hx.symm.trans hy)
  obtain ⟨-, htype, hval⟩ := hl.keyField h hq hm hx hxf (hxf.wire.tag.trans hk.tag)
  rw [hval, ← htype, hft]
  exact hk.short hne (htype.symm.trans hft)

/-- The bytes add up. -/
theorem Relisted.sum_eq : c.evalValSz + e = c.keyLength + ((metasAfterKey c.hasKey c.metalist).map (·.evalSz)).sum +
    (c.childlist.map (·.evalSz)).sum := by
  have hmetas : (c.metalist.map (·.evalSz)).sum =
      c.keyLength + ((metasAfterKey c.hasKey c.metalist).map (·.evalSz)).sum := by
    cases hhas : c.hasKey with
    | false =>
      have hsame : metasAfterKey false c.metalist = c.metalist := by cases c.metalist <;> rfl
      rw [hsame, keyLength, hhas, if_neg Bool.false_ne_true]
      omega
    | true =>
      obtain ⟨hm, hne, x, hx, hk⟩ := hl.of_hasKey h hq ht hhas
      obtain ⟨xs, hlist⟩ := List.head?_eq_some_iff.mp hx
      have hsize : x.evalSz = c.keyLength := by
        rw [hk.minimal.size, keyLength, hhas, if_pos rfl, hl.key, hk.init, KnvKey.type_init,
          KnvKey.getValue_init x.type x.val (hk.short hne), hk.tag, pbEvalFieldLength_eq, pbEvalFieldLength_eq]
        exact congrArg (fun bs : Bytes => (bs.length : ℤ)) (encode_norm ⟨1, x.type, x.val⟩).symm
      rw [hlist, metasAfterKey, if_pos (by rw [hk.tag]; rfl), List.map_cons, List.sum_cons, hsize]
  have hsum := hl.sum
  have hsum' := h.sum
  rw [hl.evalValSz]
  omega

/-- **A node with other lists** is written as them, and read back. -/
theorem Relisted.reads (hexp : q.expanded = true) :
    ∃ f, Reads pl.parentKeyed pl.isMeta (c.updateEvalSz e).1.setValueDirty f := by
  obtain ⟨fs, hfs⟩ := exists_fields fun x hx => (hl.metas x hx).2
  obtain ⟨gs, hgs⟩ := exists_fields fun x hx => (hl.children x hx).2
  have hct : c.type = .string := hl.type.trans ht
  have hkey := hl.key_eq h hq ht hfs
  have hshort := hl.short h hq ht hfs
  have hadd : AddsUp 0 (c.updateEvalSz e).1 := addsUp_updateEvalSz hct (hl.sum_eq h hq ht) (by
    rw [hl.evalSz, hl.tag, hl.evalValSz]
    exact h.head)
  have htouch := (touched_updateEvalSz c e).trans (touched_setValueDirty _)
  have hadd' : AddsUp 0 (c.updateEvalSz e).1.setValueDirty := hadd.congr (touched_setValueDirty _) rfl rfl
  have hstr : (c.updateEvalSz e).1.setValueDirty.val.str = [] := rfl
  have hdirty : (c.updateEvalSz e).1.setValueDirty.subnodeDirty = true := rfl
  have hev := htouch.evaluated (hl.evalSz ▸ Int.le_of_lt hq.here.pos)
  have hno := hq.noKey_eq ht
  generalize (c.updateEvalSz e).1.setValueDirty = r at *
  have htag : TagOk r.tag := by
    rw [htouch.tag, hl.tag]
    exact h.tag
  have hrt : r.type = .string := htouch.type.trans hct
  by_cases hne : r.metalist ≠ [] ∨ r.childlist ≠ []
  · have hms : List.Forall₂ (Reads (r.key.bytes != []) true) r.metalist fs := by
      rw [htouch.metalist, htouch.key, hl.key]
      exact hfs
    have hcs : List.Forall₂ (Reads (r.key.bytes != []) false) r.childlist gs := by
      rw [htouch.childlist, htouch.key, hl.key]
      exact hgs
    have hplace : ¬(r.tag = 1 ∧ pl.parentKeyed = true) := by
      rw [htouch.tag, hl.tag]
      exact h.place
    refine ⟨_, reads_again htag hrt (htouch.expanded.trans (hl.expanded.trans hexp)) hdirty hev hadd' hplace hne hms hcs
      (fun x hx => (hl.metas x (htouch.metalist ▸ hx)).1) (fun x hx => (hl.children x (htouch.childlist ▸ hx)).1)
      (htouch.noKey.trans (hl.noKey.trans hno)) (htouch.key.trans hkey) fun hhas => hshort ?_⟩
    rw [hasKey, htouch.key, htouch.noKey] at hhas
    exact hhas
  · -- nothing is left below
    rw [not_or, not_not, not_not] at hne
    have hrkey : r.key = {} := by
      rw [htouch.metalist] at hne
      rw [hne.1, List.forall₂_nil_left_iff] at hfs
      rw [htouch.key, hkey, hfs, leadingKey, ite_self]
    have hval := hadd'.val
    have hkl : r.keyLength = 0 := by simp [keyLength, hasKey, hrkey]
    rw [hne.1, hne.2, hkl] at hval
    have hzero : r.evalValSz.toNat = r.val.str.length := by
      simp only [metasAfterKey, List.map_nil, List.sum_nil] at hval
      rw [hstr, List.length_nil]
      omega
    refine ⟨_, reads_bare hne.1 hne.2 (fun _ => hstr) hrkey ⟨htag, ?_⟩ _ _⟩
    rw [hadd'.sz, hzero, hrt, pbEvalLength_string_eq]
    exact congrArg Nat.cast (pbEvalFieldLength_eq ..).symm

end

/-! ### One step up -/

/-- The other nodes beside the one in a slot. -/
def beside (n : KnvNode) : Slot → List KnvNode
  | .ofMeta i => n.metalist.eraseIdx i ++ n.childlist
  | .ofChild i => n.metalist ++ n.childlist.eraseIdx i

/-- What a node that has grown by `e` bytes and is written again leaves to its parent. -/
structure Resized (pl : Place) (n : KnvNode) (o : Out) (e : ℤ) : Prop where
  tag : o.node.tag = n.tag
  size : o.node.evalSz = n.evalSz + e
  msgs : ∃ b, o.msgs = [.update e b true] ∧ (e ≠ 0 → b = true)
  reads : ∃ f, Reads pl.parentKeyed pl.isMeta o.node f

theorem updateEvalSz_size (n : KnvNode) (e : ℤ) : (n.updateEvalSz e).1.evalSz = n.evalSz + (n.updateEvalSz e).2 := by
  unfold KnvNode.updateEvalSz
  split
  · exact (Int.add_zero _).symm
  · dsimp only
    omega

/-- How much longer a node gets is a matter of its tag and its sizes. -/
theorem updateEvalSz_congr (htag : m.tag = n.tag) (htype : m.type = n.type) (hsz : m.evalSz = n.evalSz)
    (hval : m.evalValSz = n.evalValSz) (e : ℤ) : (m.updateEvalSz e).2 = (n.updateEvalSz e).2 := by
  unfold KnvNode.updateEvalSz
  split
  · rfl
  · dsimp only
    rw [htag, htype, hsz, hval]

/-- A parent that has nothing written below it yet takes a message. -/
theorem handle_update_clean {e : ℤ} {b : Bool} (hclean : n.subnodeDirty = false) (hev : 0 ≤ n.evalSz)
    (hb : e ≠ 0 → b = true) (a : ℕ) : ∃ b', n.handle a (.update e b true) =
      ((n.updateEvalSz e).1.setValueDirty, [.update (n.updateEvalSz e).2 b' true]) ∧
        ((n.updateEvalSz e).2 ≠ 0 → b' = true) := by
  have hdirty : ∀ o : ℤ, (n.updateEvalSz o).1.subnodeDirty = false := fun o => by
    unfold KnvNode.updateEvalSz
    split <;> exact hclean
  by_cases he : e = 0
  · subst he
    have hzero : n.updateEvalSz 0 = (n, 0) := if_pos rfl
    have hturn : n.turnEval 0 b = (n, 0, false) := by
      unfold turnEval
      split
      · rw [if_pos (by simp)]
      · rfl
    refine ⟨false, ?_, fun h => absurd (by rw [hzero]) h⟩
    rw [handle_update, Bool.true_or, if_pos rfl, hturn, hzero, turnDirty, if_pos rfl, hclean, if_neg Bool.false_ne_true]
  · have hturn : n.turnEval e b = ((n.updateEvalSz e).1, (n.updateEvalSz e).2, true) := by
      unfold turnEval
      rw [if_pos (hb he), if_neg (by simp [he, Int.not_lt.mpr hev])]
    refine ⟨true, ?_, fun _ => rfl⟩
    rw [handle_update, Bool.true_or, if_pos rfl, hturn, turnDirty, if_pos rfl, hdirty, if_neg Bool.false_ne_true]

theorem mem_set_or_eraseIdx {l : List KnvNode} {i : ℕ} (hx : x ∈ l.set i c) : x = c ∨ x ∈ l.eraseIdx i := by
  obtain ⟨j, hj⟩ := List.getElem?_of_mem hx
  by_cases hij : i = j
  · subst hij
    obtain ⟨hlt, rfl⟩ := List.getElem?_eq_some_iff.mp hj
    exact .inl (List.getElem_set_self _)
  · rw [List.getElem?_set_ne hij] at hj
    exact .inr (List.mem_eraseIdx_iff_getElem?.mpr ⟨j, fun h => hij h.symm, hj⟩)

/-- The key is not the node that is edited. -/
theorem Rewrites.slot_ne {s : Slot} {e : ℤ} (h : Rewrites pl q (q.beside s) e) (hs : Shape q) (hm : pl.isMeta = false)
    (hc : q.metalist.head? = some c) (hone : c.tag = 1) : s ≠ .ofMeta 0 := by
  rintro rfl
  obtain ⟨hstay, -⟩ := h.key hm c hc hone
  obtain ⟨xs, hlist⟩ := List.head?_eq_some_iff.mp hc
  have hnd := hs.nodup
  rw [addrs, List.map_append, hlist, List.map_cons] at hnd
  obtain ⟨-, hnd', hdisj⟩ := List.nodup_append.mp hnd
  rw [beside, hlist] at hstay
  rcases List.mem_append.mp hstay with hmem | hmem
  · exact (List.nodup_cons.mp hnd').1 (List.mem_map.mpr ⟨c, hmem, rfl⟩)
  · exact hdisj _ (List.mem_map.mpr ⟨c, hmem, rfl⟩) _ (List.mem_cons_self ..) rfl

/-- The node in a slot has been edited. -/
theorem relisted_setSlot {s : Slot} {e : ℤ} (hq : Looked pl.parentKeyed pl.isMeta q) (hs : Shape q)
    (hc : q.slot s = some c) (h : Rewrites pl q (q.beside s) e)
    (hr : ∃ f, Reads (q.place s).parentKeyed (q.place s).isMeta c' f) (htag : c'.tag = c.tag)
    (hsz : c'.evalSz = c.evalSz + e) : Relisted pl q (q.setSlot s c') e := by
  have hp := hq.here
  have hreads : ∀ {x : KnvNode} {b : Bool}, x ∈ q.beside s → Looked (q.key.bytes != []) b x →
      ∃ f, Reads (q.key.bytes != []) b x f := fun hx hlook => ⟨_, hlook.reads (h.minimal _ hx)⟩
  cases s with
  | ofMeta i =>
    have hci : q.metalist[i]? = some c := hc
    have hsum := sum_set (fun x : KnvNode => x.evalSz) c c' q.metalist i hci
    refine ⟨rfl, rfl, rfl, rfl, rfl, rfl, rfl, ?_, fun x hx => ?_, fun x hx => ⟨hp.children x hx, ?_⟩,
      fun hm x hone => ?_⟩
    · rw [setSlot_ofMeta]
      dsimp only at hsum ⊢
      omega
    · rcases mem_set_or_eraseIdx hx with rfl | hx
      · exact ⟨htag ▸ hp.metas c (List.mem_of_getElem? hci), hr⟩
      · have hmem := List.mem_of_mem_eraseIdx hx
        exact ⟨hp.metas x hmem, hreads (List.mem_append_left _ hx) (hq.metas x hmem)⟩
    · exact hreads (List.mem_append_right _ hx) (hq.children x hx)
    · rw [setSlot_ofMeta]
      cases i with
      | succ i => cases q.metalist <;> rfl
      | zero =>
        -- neither the node before nor the node now is the key
        have hno : c.tag ≠ 1 := fun h1 => h.slot_ne hs hm (by rw [List.head?_eq_getElem?]; exact hci) h1 rfl
        have hhead : q.metalist.head? = some c := by
          rw [List.head?_eq_getElem?]
          exact hci
        have hhead' : (q.metalist.set 0 c').head? = some c' := by
          obtain ⟨xs, hlist⟩ := List.head?_eq_some_iff.mp hhead
          rw [hlist]
          rfl
        rw [hhead, hhead']
        refine ⟨fun hx => ?_, fun hx => ?_⟩
        · obtain rfl := Option.some.inj hx
          exact absurd (htag.symm.trans hone) hno
        · obtain rfl := Option.some.inj hx
          exact absurd hone hno
  | ofChild i =>
    have hci : q.childlist[i]? = some c := hc
    have hsum := sum_set (fun x : KnvNode => x.evalSz) c c' q.childlist i hci
    refine ⟨rfl, rfl, rfl, rfl, rfl, rfl, rfl, ?_, fun x hx => ⟨hp.metas x hx, ?_⟩, fun x hx => ?_, fun _ _ _ => Iff.rfl⟩
    · rw [setSlot_ofChild]
      dsimp only at hsum ⊢
      omega
    · exact hreads (List.mem_append_left _ hx) (hq.metas x hx)
    · rcases mem_set_or_eraseIdx hx with rfl | hx
      · exact ⟨htag ▸ hp.children c (List.mem_of_getElem? hci), hr⟩
      · have hmem := List.mem_of_mem_eraseIdx hx
        exact ⟨hp.children x hmem, hreads (List.mem_append_right _ hx) (hq.children x hmem)⟩

/-- **A parent that hears of an edit** is written again, and tells its own parent. -/
theorem resized_up {s : Slot} {o : Out} {e : ℤ} (hq : Looked pl.parentKeyed pl.isMeta q) (hs : Shape q)
    (hc : q.slot s = some c) (h : Rewrites pl q (q.beside s) e) (ho : Resized (q.place s) c o e) (r : Except KnvErr ℕ) :
    Resized pl q ⟨(hanging.notify (hanging.set q s o.node) s o.msgs).1,
      (hanging.notify (hanging.set q s o.node) s o.msgs).2, r⟩ (q.updateEvalSz e).2 := by
  have hp := hq.here
  obtain ⟨hexp, ht, -⟩ := hp.slot hc
  have hl := relisted_setSlot hq hs hc h ho.reads ho.tag ho.size
  have hclean : (q.setSlot s o.node).subnodeDirty = false := by cases s <;> exact hp.clean
  obtain ⟨b, hmsgs, hb⟩ := ho.msgs
  obtain ⟨b', hhandle, hb'⟩ := handle_update_clean hclean (hl.evalSz ▸ Int.le_of_lt hp.pos) hb o.node.self
  have hsnd := updateEvalSz_congr hl.tag hl.type hl.evalSz hl.evalValSz e
  rw [notify_setSlot hc, hmsgs, handleAll_cons, hhandle]
  refine ⟨?_, ?_, ⟨b', by rw [hsnd]; rfl, hsnd ▸ hb'⟩, hl.reads h hq ht hexp⟩
  · exact ((touched_updateEvalSz _ e).trans (touched_setValueDirty _)).tag.trans hl.tag
  · show ((q.setSlot s o.node).updateEvalSz e).1.evalSz = _
    rw [updateEvalSz_size, hsnd, hl.evalSz]

end KnvNode

end KnvProto
