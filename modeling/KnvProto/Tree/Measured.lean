import KnvProto.Tree.Cache
import KnvProto.Tree.Reread

/-!
# Exact sizes

The cached sizes of a tree are exact when they are those of its plain encoding: at every
node `eval_sz` is the length that the node is written with, and `eval_val_sz` of a string
the length of its value (`Measured`).

## The model

In a sound tree this is what `Serialize` needs (`accurate_of_measured`,
`measured_of_accurate`), and it holds of a node with nodes below it exactly where its sizes
are the sums of those below it (`Measured.addsUp`, `AddsUp.measured`): this is how an
operation that tells its parent a difference keeps it.
-/

namespace KnvProto.KnvNode

/-- The cached sizes of a node are those of its plain encoding. -/
structure Measured (n : KnvNode) : Prop where
  size : n.evalSz = n.plain.length
  value : n.type = .string → n.evalValSz = n.plainVal.length

variable {pl : Place} {n n' : KnvNode}

/-! ### Sums -/

/-- What hangs below a sound node is sound, at its place. -/
theorem Sound.below (h : Sound pl n) {x : KnvNode} (hx : x ∈ n.metalist ++ n.childlist) : ∃ q, Sound q x := by
  obtain ⟨s, hs⟩ : ∃ s : Slot, n.slot s = some x := by
    rcases List.mem_append.mp hx with hx | hx
    · obtain ⟨i, hi⟩ := List.mem_iff_getElem?.mp hx
      exact ⟨.ofMeta i, hi⟩
    · obtain ⟨i, hi⟩ := List.mem_iff_getElem?.mp hx
      exact ⟨.ofChild i, hi⟩
  exact ⟨n.place s, All.slot h.cached hs, All.slot h.shaped hs, (h.cached.here.toHeld.placed hs).seated⟩

theorem sum_measured {l : List KnvNode} (h : ∀ x ∈ l, Measured x) :
    (l.map (·.evalSz)).sum = (plainAll false l).length := by
  induction l with
  | nil => simp
  | cons x l ih =>
    rw [List.map_cons, List.sum_cons, ih fun y hy => h y (List.mem_cons_of_mem _ hy), (h x (List.mem_cons_self ..)).size,
      plainAll_false_cons, List.length_append, Nat.cast_add]

/-- A key that has been written is left out of both sums. -/
theorem plainAll_metasAfterKey (b : Bool) (l : List KnvNode) : plainAll b l = plainAll false (metasAfterKey b l) := by
  cases l with
  | nil => rw [metasAfterKey, plainAll_nil, plainAll_nil]
  | cons x l =>
    rw [plainAll_cons, metasAfterKey]
    split
    · rfl
    · rw [plainAll_false_cons]

/-- The sizes of what is below a node, and of its key, are the length of what it is written as. -/
theorem sum_below (hbelow : ∀ x ∈ n.metalist ++ n.childlist, Measured x) :
    n.keyLength + ((metasAfterKey n.hasKey n.metalist).map (·.evalSz)).sum + (n.childlist.map (·.evalSz)).sum =
      ((n.keyBytes ++ plainAll n.hasKey n.metalist ++ plainAll false n.childlist).length : ℤ) := by
  rw [sum_measured fun x hx => hbelow x (List.mem_append_left _ (mem_of_metasAfterKey hx)),
    sum_measured fun x hx => hbelow x (List.mem_append_right _ hx), ← plainAll_metasAfterKey, List.length_append,
    List.length_append, length_keyBytes, Nat.cast_add, Nat.cast_add]

theorem length_plain_string (ht : n.type = .string) : n.plain.length = pbEvalLength n.tag .string 0 n.plainVal.length := by
  rw [plain, length_encode_fieldOf, ht]
  exact pbEvalLength_string ..

/-- Nothing is written but the value of a message that has nothing below it, since then it has no key. -/
theorem plainVal_of_message (hheld : Held n) (ht : n.type = .string) (hexp : n.expanded = true)
    (hval : n.metalist ≠ [] ∨ n.childlist ≠ [] ∨ n.val.str = []) :
    n.plainVal = n.keyBytes ++ plainAll n.hasKey n.metalist ++ plainAll false n.childlist := by
  cases hf : n.isFolded with
  | false => exact plainVal_of_not_folded hf
  | true =>
    have hnil : n.metalist = [] ∧ n.childlist = [] := by
      simpa [isFolded, ht, hexp, and_comm] using hf
    have hstr : n.val.str = [] := by simpa [hnil.1, hnil.2] using hval
    have hkey : n.hasKey = false := by
      cases hk : n.hasKey with
      | false => rfl
      | true => exact absurd (by simp [metaAt, hnil.1]) (hheld.keyed ht hexp hk)
    rw [plainVal_of_folded hf, hstr, keyBytes, hkey, hnil.1, hnil.2]
    rfl

/-- The sizes of a message that keeps no value are exact where they are sums. -/
theorem AddsUp.measured (h : AddsUp 0 n) (hheld : Held n) (ht : n.type = .string) (hexp : n.expanded = true)
    (hval : n.metalist ≠ [] ∨ n.childlist ≠ [] ∨ n.val.str = []) (hbelow : ∀ x ∈ n.metalist ++ n.childlist, Measured x) :
    Measured n := by
  have hsum : n.evalValSz = n.plainVal.length := by
    rw [plainVal_of_message hheld ht hexp hval, ← sum_below hbelow, ← h.val, Int.add_zero]
  refine ⟨?_, fun _ => hsum⟩
  rw [h.sz, hsum, Int.toNat_natCast, length_plain_string ht]

theorem Measured.addsUp (h : Measured n) (hheld : Held n) (ht : n.type = .string) (hexp : n.expanded = true)
    (hval : n.metalist ≠ [] ∨ n.childlist ≠ [] ∨ n.val.str = []) (hbelow : ∀ x ∈ n.metalist ++ n.childlist, Measured x) :
    AddsUp 0 n := by
  refine ⟨?_, hheld.size ht⟩
  rw [sum_below hbelow, ← plainVal_of_message hheld ht hexp hval, Int.add_zero, h.value ht]

/-! ### What `Serialize` needs -/

/-- A value that is copied is the one that is written. -/
theorem plain_of_value (h : Cached n) (hf : (n.isFolded || n.isClean) = true) :
    n.plain = PbField.encode ⟨n.tag, n.type, n.val⟩ ∧ (n.type = .string → n.plainVal = n.val.str) := by
  cases hfold : n.isFolded with
  | true => exact ⟨(encode_of_folded hfold).symm, fun _ => plainVal_of_folded hfold⟩
  | false =>
    have hval := h.clean hfold (by simpa [hfold] using hf)
    have ht := type_of_not_folded hfold
    refine ⟨?_, fun _ => hval.symm⟩
    rw [plain, fieldOf, if_pos ht, ← hval, ht]
    rfl

/-- The sizes of a sound tree are those that `Serialize` needs when they are exact. -/
theorem accurate_of_measured (h : Sound pl n) (hm : All Measured n) : All Accurate n := by
  induction n using induct generalizing pl with
  | h n hms hcs =>
    have hn := h.cached.here
    have hbelow : ∀ x ∈ n.metalist ++ n.childlist, Measured x := fun x hx =>
      (List.mem_append.mp hx).elim (fun hx => (hm.metas x hx).here) fun hx => (hm.children x hx).here
    refine .mk ⟨h.seated.valid, fun hf => ?_, fun hf => ?_⟩ (fun x hx => ?_) fun x hx => ?_
    · obtain ⟨hplain, hval⟩ := plain_of_value hn hf
      exact ⟨by rw [hm.here.size, hplain, pbEvalFieldLength_eq], fun ht => by rw [hm.here.value ht, hval ht]⟩
    · have hfold := (Bool.or_eq_false_iff.mp hf).1
      have ht := type_of_not_folded hfold
      have hsum := sum_below hbelow
      rw [← plainVal_of_not_folded hfold, ← hm.here.value ht] at hsum
      exact ⟨hsum.symm, hn.size ht⟩
    · obtain ⟨q, hq⟩ := h.below (List.mem_append_left _ hx)
      exact hms x hx hq (hm.metas x hx)
    · obtain ⟨q, hq⟩ := h.below (List.mem_append_right _ hx)
      exact hcs x hx hq (hm.children x hx)

/-- **A tree with exact sizes is written exactly into the buffers that its plain encoding fits into.** -/
theorem serialize_iff_of_measured (h : Sound pl n) (hm : All Measured n) (len : ℕ) (out : Bytes) :
    n.serialize len true = .ok out ↔ n.plain.length ≤ len ∧ out = n.plain := by
  obtain ⟨f, hf⟩ := wire_of_accurate (accurate_of_measured h hm) h.shaped
  have hplain := plain_serialize (h.cached.imp fun _ h => h.honest) h.shaped
  have henc : f.encode = n.plain := (hplain _ _).1 ((hf.iff f.encode.length f.encode).mpr ⟨Nat.le_refl _, rfl⟩)
  rw [hf.iff, henc]

theorem serializeStr_iff_of_measured (h : Sound pl n) (hm : All Measured n) (out : Bytes) :
    n.serializeStr = .ok out ↔ out = n.plain := by
  have hsz : n.evaluateSize.evalSz = n.plain.length := by
    rw [evaluateSize_of_nonneg h.shaped.here.evaluated]
    exact hm.here.size
  have hser := (serialize_iff_of_measured h hm n.plain.length n.plain).mpr ⟨Nat.le_refl _, rfl⟩
  unfold KnvNode.serializeStr
  simp only [hsz, Int.toNat_natCast, hser, ne_eq, not_true_eq_false, if_false, Except.ok.injEq]
  exact eq_comm

/-! ### Nodes of a message -/

/-- The node of a field has the size of the field. -/
theorem measured_ofField {f : PbField} (hok : f.norm = f) (k : Bool) (a : ℕ) :
    All Measured ((ofField (sized f) k).at' a) := by
  have hpos : 0 < f.encode.length := length_encode_pos' f
  have hfold : ((ofField (sized f) k).at' a).isFolded = true := isFolded_of_nil rfl rfl
  refine .of_nil ⟨?_, fun ht => ?_⟩ rfl rfl
  · rw [plain_at', show sized f = (f, f.encode.length) from rfl, plain_ofField hok]
    exact congrArg Nat.cast (if_pos hpos)
  · rw [plainVal_of_folded hfold]
    obtain ⟨tag, type, val⟩ := f
    cases ht
    rfl

theorem measured_parsed {k : Bool} {fs : List PbField} {a : ℕ} (hok : ∀ f ∈ fs, f.Ok ∧ f.norm = f) {c : KnvNode}
    (hc : c ∈ parsed k a (fs.map sized)) : All Measured c := by
  obtain ⟨p, hp, b, rfl⟩ := mem_parsed hc
  obtain ⟨f, hf, rfl⟩ := List.mem_map.mp hp
  exact measured_ofField (hok f hf).2 _ b

/-- A node has its sizes also when it is expanded, and so have its nodes. -/
theorem measured_innerExpand (h : Sound pl n) (hm : All Measured n) (k : Bool) :
    All Measured (n.innerExpand pl.parentKeyed k) := by
  have hsame := expandSame pl.parentKeyed k n
  have hplainVal := expand_plainVal h.cached.here pl.parentKeyed k
  have hhere : Measured (n.innerExpand pl.parentKeyed k) := by
    refine ⟨?_, fun ht => ?_⟩
    · rw [plain, hplainVal, fieldOf, hsame.tag, hsame.type, hsame.val, hsame.evalSz]
      exact hm.here.size
    · rw [hsame.evalValSz, hplainVal]
      exact hm.here.value (hsame.type ▸ ht)
  cases hexp : n.expanded with
  | true => exact (innerExpand_of_expanded hexp).symm ▸ hm
  | false =>
    have hun : Unfolded pl.parentKeyed k n (n.innerExpand pl.parentKeyed k) := unfolded hexp fun ht =>
      h.cached.here.canon ht (isFolded_of_not_expanded hexp)
    generalize n.innerExpand pl.parentKeyed k = x at hun hhere
    cases hun with
    | leaf _ hms hcs _ => exact .of_nil hhere hms hcs
    | message ms cs _ _ _ hok _ _ _ _ hmetas hchildren _ =>
      exact .mk hhere (fun m hm => measured_parsed (fun f hf => hok f (List.mem_append_left _ hf)) (hmetas ▸ hm))
        fun c hc => measured_parsed (fun f hf => hok f (List.mem_append_right _ hf)) (hchildren ▸ hc)

end KnvProto.KnvNode
