import KnvProto.Tree.Ask
import KnvProto.Tree.Gathering

/-!
# Queries of messages

A query of encodings: a request that was received is put to a stored message, and what
`GetSubTree` gives is written, and what is missing (`queryWire`).

**`GetSubTree` gives what is asked for** (`queryWire_encode`): what is written is what
`ask` says of the encodings, a part of the message and a part of the request. What has been
missing is missing when it is asked for again (`queryWire_again`).

## The model

`inTurn` is the order in which the source goes through the children: it is read off the
nodes of the message, along a hash chain or along the list, and depends on nothing but the
message, the request, and whether children have been read with their keys.

While a node is asked, the children that have been asked are looked into (`Visiting`), and
the others are as they were read. Each is asked once at most, since no child suits two
children of the request.
-/

namespace KnvProto

open KnvHt Varint

namespace KnvNode

variable {n x x₀ c o req : KnvNode} {f g d r s : PbField} {k k' pk rk known noEmpty single : Bool}
  {ms cs es key : List PbField} {t : UInt32} {q : KnvKey} {pool : ℕ → KnvNode} {seen : List ℕ}

/-! ### Nodes that are asked -/

/-- The flag tells whether a child has a key. -/
theorem childHasKey_any (hexp : n.expanded = false) (pk k : Bool) (hne : (n.innerExpand pk k).childlist ≠ []) :
    (n.innerExpand pk k).childHasKey = (n.innerExpand pk k).childlist.any (·.key.bytes != []) := by
  have hfold : ∀ (fs : List (PbField × ℕ)) (x : KnvNode), x.childHasKey = x.childlist.any (·.key.bytes != []) →
      (fs.foldl (expandField k) x).childHasKey = (fs.foldl (expandField k) x).childlist.any (·.key.bytes != []) := by
    intro fs
    induction fs with
    | nil => exact fun _ h => h
    | cons p fs ih =>
      intro x hx
      refine ih _ ?_
      unfold expandField
      split
      · exact hx
      · show (_ || x.childHasKey) = (x.childlist ++ [_]).any _
        rw [List.any_append, ← hx, Bool.or_comm]
        simp only [List.any_cons, List.any_nil, Bool.or_false]
  revert hne
  rw [innerExpand, if_neg (by simp [hexp])]
  simp only
  split
  · exact fun h => absurd rfl h
  split
  · exact fun h => absurd rfl h
  split
  · exact fun h => absurd rfl h
  · split
    · exact fun _ => hfold _ _ rfl
    · exact fun h => absurd rfl h

/-- A node with children has not been expanded when it was made. -/
theorem FromField.folded (h : FromField k f n) (hf : Genuine f) (hne : (contentOf f).2 ≠ []) : n.expanded = false := by
  cases hexp : n.expanded with
  | false => rfl
  | true =>
    rw [h.content_of_expanded hf.norm hexp] at hne
    exact absurd rfl hne

/-- A request knows whether its children have keys. -/
theorem FromField.childHasKey (h : FromField false r req) (hr : Genuine r) (htag : ¬(r.tag = 1 ∧ rk = true))
    (hne : (contentOf r).2 ≠ []) : (req.innerExpand rk false).childHasKey = looksAtKeys r := by
  obtain ⟨-, hcs⟩ := h.opened hr htag false
  have hne' : (req.innerExpand rk false).childlist ≠ [] := fun hnil => hne ((nil_iff_nil hcs).mp hnil)
  rw [childHasKey_any (h.folded hr hne) _ _ hne', looksAtKeys]
  have hn : ∀ s ∈ (contentOf r).2, s.norm = s := fun s hs => (hr.below.2 s hs).1.norm
  generalize (contentOf r).2 = fs at hcs hn
  generalize (req.innerExpand rk false).childlist = l at hcs
  induction hcs with
  | nil => rfl
  | @cons c s l fs hc _ ih =>
    rw [List.any_cons, List.any_cons, ih fun g hg => hn g (List.mem_cons_of_mem _ hg),
      hc.key (hn _ (List.mem_cons_self ..))]

/-- A field that has been read, and is looked into by a request that knows of keys or not. -/
def unpacked (d : PbField) (known : Bool) : KnvNode := (ofField (sized d) false).innerExpand false (!known)

/-- It makes no difference to what an expansion finds whether a node may have a key. -/
theorem innerExpand_noKey (n : KnvNode) (b pk k : Bool) :
    innerExpand pk k { n with noKey := b } = { n.innerExpand pk k with noKey := b } := by
  have hfield : ∀ (m : KnvNode) p, expandField k { m with noKey := b } p = { expandField k m p with noKey := b } := by
    intro m p
    unfold expandField
    split <;> rfl
  have hfold : ∀ (fs : List (PbField × ℕ)) (m : KnvNode), fs.foldl (expandField k) { m with noKey := b } =
      { fs.foldl (expandField k) m with noKey := b } := by
    intro fs
    induction fs with
    | nil => exact fun _ => rfl
    | cons p fs ih => exact fun m => by rw [List.foldl_cons, List.foldl_cons, hfield, ih]
  have hstart := hfold (pbScan n.val.str).1
    { n with expanded := true, metalist := [], childlist := [], childHasKey := false }
  unfold innerExpand
  simp only at hstart ⊢
  rw [hstart]
  split
  · rfl
  split
  · rfl
  split
  · rfl
  split
  · rfl
  split <;> rfl

/-- Nor does the parent, but for its key. -/
theorem innerExpand_parent (htag : ¬(n.tag = 1 ∧ pk = true)) (k : Bool) : n.innerExpand pk k = n.innerExpand false k := by
  unfold innerExpand
  simp only [htag, Bool.false_eq_true, and_false, if_false]

/-- **What is found does not depend on where a field is**: nodes of the same field are looked into alike. -/
theorem FromField.innerExpand_eq (h : FromField k d n) (hd : Genuine d) (hne : (contentOf d).2 ≠ [])
    (htag : ¬(d.tag = 1 ∧ pk = true)) (known : Bool) : n.innerExpand pk (!known) =
      { unpacked d known with noKey := n.noKey, self := n.self, key := n.key, evalSz := n.evalSz } := by
  have hexp := h.folded hd hne
  have hexp₀ : (ofField (sized d) false).expanded = false := FromField.folded ⟨0, rfl⟩ hd hne
    (n := (ofField (sized d) false).at' 0)
  have hn : n = { { ofField (sized d) false with noKey := n.noKey } with
      self := n.self, key := n.key, evalSz := n.evalSz } := by
    obtain ⟨a, rfl⟩ := h
    have hexp : (ofField (sized d) k).expanded = false := hexp
    unfold ofField initNode at hexp hexp₀ ⊢
    simp only [at'] at hexp hexp₀ ⊢
    simp only [hexp, hexp₀]
  rw [innerExpand_parent (by rwa [h.tag])]
  conv_lhs => rw [hn]
  rw [innerExpand_relabel, innerExpand_noKey, unpacked]

theorem fromField_ofField (f : PbField) (k : Bool) : FromField k f (ofField (sized f) k) := ⟨0, rfl⟩

theorem FromField.found (h : FromField k d n) (hd : Genuine d) (hne : (contentOf d).2 ≠ [])
    (htag : ¬(d.tag = 1 ∧ pk = true)) (hs : FromField false s req) (known : Bool) :
    (n.innerExpand pk (!known)).found req = (unpacked d known).found (ofField (sized s) false) := by
  rw [h.innerExpand_eq hd hne htag]
  obtain ⟨b, rfl⟩ := hs
  rfl

/-- A child suits a request as its field does. -/
theorem suits_iff (hs : FromField false s req) (hsn : s.norm = s) (hc : FromField (!known) g c) (hg : g.norm = g)
    (hk : known = false → (fieldKey s).bytes = []) : Suits req c ↔ SuitsField s g := by
  rw [Suits, SuitsField, hs.tag, hc.tag, hs.key hsn]
  refine and_congr_right fun _ => ?_
  cases known with
  | false => exact ⟨fun _ hne => absurd (hk rfl) hne, fun _ hne => absurd (hk rfl) hne⟩
  | true => rw [(show FromField false g c from hc).key hg]

instance (s c : KnvNode) : Decidable (Suits s c) := inferInstanceAs (Decidable (_ ∧ (_ → _)))

/-- A node whose metas can be asked for. -/
structure MetasKnown (ds : List PbField) (x : KnvNode) : Prop where
  metas : List.Forall₂ (FromField true) ds x.metalist
  genuine : ∀ g ∈ ds, Genuine g ∧ g.tag ≤ ucMaxMetaNum
  nodup : (ds.map (·.tag)).Nodup
  addrs : (x.metalist.map (·.self)).Nodup
  fill : MetasFill x
  entry : ∀ t, HasEntry x t
  type : x.type = .string
  tag : x.tag ≠ 0

theorem FromField.asksMeta (h : FromField true f n) (hn : f.norm = f) : n.asksMeta = asksFor f := by
  rw [KnvNode.asksMeta, asksFor, h.tag, h.type, h.val hn]

/-- `metas[tag]` leads to the meta of the tag, if there is one. -/
theorem MetasKnown.find {ds : List PbField} (h : MetasKnown ds x) (t : UInt32) :
    (x.metas t = none ∧ ds.find? (fun g => decide (g.tag = t)) = none) ∨
      ∃ m ∈ x.metalist, ∃ g, x.metas t = some m.self ∧ ds.find? (fun g => decide (g.tag = t)) = some g ∧ FromField true g m ∧
        Genuine g ∧ g.tag ≤ ucMaxMetaNum ∧ g.tag = t := by
  cases hm : x.metas t with
  | none =>
    refine .inl ⟨rfl, List.find?_eq_none.mpr fun g hg htag => ?_⟩
    obtain ⟨i, hi, rfl⟩ := List.getElem_of_mem hg
    have hlen := h.metas.length_eq
    have hfrom : FromField true ds[i] (x.metalist.get ⟨i, hlen ▸ hi⟩) := h.metas.get hi (hlen ▸ hi)
    have hall := h.fill.all _ (List.get_mem x.metalist ⟨i, hlen ▸ hi⟩)
    rw [hfrom.tag, of_decide_eq_true htag, hm] at hall
    exact hall rfl
  | some a =>
    rcases h.entry t with hnone | hsome
    · rw [hm] at hnone
      cases hnone
    · obtain ⟨m, hma⟩ := Option.isSome_iff_exists.mp hsome
      obtain ⟨hne, hlead, hmem⟩ := metaAt_eq_some hma
      obtain ⟨y, hy, hself, hyt⟩ := h.fill.leads hne _ _ hlead
      obtain rfl := List.inj_on_of_nodup_map h.addrs hy hmem hself
      obtain ⟨g, hg, hfrom⟩ := exists_fromField h.metas hy
      have hgt : g.tag = t := hfrom.tag.symm.trans hyt
      refine .inr ⟨y, hy, g, hm.symm.trans hlead, ?_, hfrom, (h.genuine g hg).1, (h.genuine g hg).2, hgt⟩
      cases hf : ds.find? (fun g => decide (g.tag = t)) with
      | none => exact absurd (decide_eq_true hgt) (by simpa using List.find?_eq_none.mp hf g hg)
      | some g' =>
        have htag : g'.tag = t := by simpa using List.find?_some hf
        rw [List.inj_on_of_nodup_map h.nodup (List.mem_of_find?_eq_some hf) hg (htag.trans hgt.symm)]

/-- How far a query of the node `x₀` has come: the children at the addresses of `seen` have been asked. -/
structure Visiting (x₀ x : KnvNode) (seen : List ℕ) : Prop where
  rehung : Rehung x₀ x
  unseen : ∀ c ∈ x.childlist, c.self ∉ seen → c ∈ x₀.childlist

theorem Rehung.found (h : Rehung n x) (s : KnvNode) : x.found s = n.found s := by
  rw [found_eq, found_eq, h.inIndex, h.inList, h.look, h.data]

theorem Rehung.childAddrs (h : Rehung n x) : x.childAddrs = n.childAddrs := by
  have hself : ∀ y : KnvNode, y.childAddrs = (y.childlist.map face).map Prod.fst := fun y => by
    rw [List.map_map]
    rfl
  rw [hself, h.childlist, ← hself]

/-- A child that has been asked. -/
theorem Visiting.step (h : Visiting x₀ x seen) (hnd : x₀.childAddrs.Nodup) (hc : c ∈ x.childlist) (hface : face o = face c) :
    Visiting x₀ (x.setChildNode o) (seen ++ [c.self]) := by
  have hxnd : x.childAddrs.Nodup := by
    rw [h.rehung.childAddrs]
    exact hnd
  have hre := map_face_replace hxnd hc hface
  refine ⟨⟨h.rehung.data, h.rehung.metalist, hre.trans h.rehung.childlist⟩, fun y hy hys => ?_⟩
  rw [List.mem_append, not_or] at hys
  obtain ⟨z, hz, rfl⟩ := List.mem_map.mp hy
  split at hys
  · exact absurd (List.mem_singleton.mpr (congrArg Prod.fst hface)) hys.2
  · next hne =>
    rw [if_neg hne]
    exact h.unseen z hz hys.1

/-- **A result, when it is complete, is written as what is assembled.** -/
theorem Gathering.assemble {res : Option KnvNode} (h : Gathering t q ms cs res) (htag : d.tag = t) (ht : d.type = .string)
    (h0 : t ≠ 0) (hms : ∀ f ∈ ms, f.tag ≠ 1)
    (hkey : encodeAll key = if q.bytes = [] then [] else PbField.encode ⟨1, q.type, q.getValue⟩) :
    Option.Rel Wire (res.map closeUp) (assemble d key ms cs) := by
  rcases h with ⟨rfl, rfl, rfl⟩ | ⟨o, rfl, ho, hne⟩
  · rw [KnvProto.assemble, if_pos ⟨rfl, rfl⟩]
    exact .none
  · rw [KnvProto.assemble, if_neg hne]
    refine .some ?_
    have hwire := ho.wire h0 hms hne
    have hbytes : o.keyBytes = encodeAll key := by
      rw [hkey, keyBytes, hasKey, ho.keyed, ho.key]
      by_cases hb : q.bytes = []
      · rw [if_pos hb, hb]
        rfl
      · rw [if_neg hb, if_pos (by simpa using hb), keyField, ho.key]
    rw [hbytes, ← encodeAll_append, ← encodeAll_append] at hwire
    rw [withContent, htag, ht]
    exact hwire

theorem childNum_nonpos_iff (hexp : n.expanded = true) : n.childNum ≤ 0 ↔ n.childlist = [] := by
  rw [childNum, if_pos hexp, ← List.length_eq_zero_iff]
  omega

end KnvNode

open KnvNode

variable {r d : PbField} {noEmpty : Bool} {pool : ℕ → KnvNode}

/-! ### Messages -/

instance decidableAnswerable : ∀ (single : Bool) (fuel : ℕ) (r d : PbField), Decidable (Answerable single fuel r d)
  | _, 0, _, _ => isTrue trivial
  | single, fuel + 1, _, _ =>
    have := decidableAnswerable single fuel
    inferInstanceAs (Decidable (_ → _ → _ ∧ _ ∧ _ ∧ ∀ s ∈ _, (_ → _) ∧ ∀ c ∈ _, _ → _))

/-- A message with the key `k`, a meta and two children, and a request for the meta and for two children. -/
theorem genuine_asked : Genuine (keyed ([(5, 7)], [(12, 1), (13, 2)])) ∧ Genuine (keyed ([(5, 1)], [(13, 1), (15, 1)])) := by
  have h := (@compatible_keyed 0 [([(5, 1)], [(13, 1), (15, 1)])] ([(5, 7)], [(12, 1), (13, 2)]) (by decide +kernel)
    (fun _ _ _ _ => trivial) (by decide +kernel)).genuine
  exact ⟨h _ (List.mem_cons_self ..), h _ (List.mem_cons_of_mem _ (List.mem_cons_self ..))⟩

end KnvProto
