import KnvProto.Tree.Asked

/-!
# Deletions from messages

A deletion, said of encodings: what a request asks for is taken out of a message (`prune`), and
a field that is left trade children goes, too. A request with a key meets a child that is
written with another type of key; such a child goes only if it has no children.

**`DeleteSubTree` takes out what is asked for** (`deleteWire_encode`): what is written is the
message without it.

## The model

A child of the message that suits no child of the request stays as it is, and any other suits
one (`left`): it makes no difference in which order the request is gone through. In the nodes,
`Pruning` says how far a deletion has come: the children, with what each of them is written as.
-/

namespace KnvProto

open KnvHt Varint

/-- What is left of a field that a child of a request suits, if `below` is what is left of its children. -/
def cut (below : PbField → PbField → List PbField) (s c : PbField) : Option PbField :=
  -- the key has another type
  if (fieldKey s).bytes ≠ [] ∧ fieldKey c ≠ fieldKey s then if (contentOf c).2 = [] then none else some c
  else if (contentOf s).2 = [] then
    -- a number that is 0 is not requested
    if s.type = .string ∨ s.type = .varint ∧ s.val.i64 ≠ 0 then none else some c
  else if below s c = [] then none else some (withContent c (contentOf c).1 (below s c))

/-- What is left of a field, of which a request has the children `ss`. -/
def left (below : PbField → PbField → List PbField) (ss : List PbField) (c : PbField) : Option PbField :=
  (ss.find? fun s => SuitsField s c).elim (some c) fun s => cut below s c

/-- The children that are left of a message when a request is deleted from it. -/
def prune : ℕ → PbField → PbField → List PbField
  | 0, _, d => (contentOf d).2
  | fuel + 1, r, d => (contentOf d).2.filterMap (left (prune fuel) (contentOf r).2)

/-- What has some parts of the children is a part. -/
theorem within_withContent {c f : PbField} {cs : List PbField} (h : ∀ x ∈ cs, ∃ y ∈ (contentOf c).2, Within x y)
    (hne : cs ≠ []) (hf : withContent c (contentOf c).1 cs = f) : Within f c := by
  have hall : assemble c [] (contentOf c).1 cs = some f := by
    rw [assemble, if_neg fun hnil => hne hnil.2, List.nil_append, hf]
  exact Within.assemble (fun _ hm => absurd hm List.not_mem_nil) (fun _ hm => hm) h hall

/-- **What is left of the children are parts of them.** -/
theorem within_prune : ∀ (fuel : ℕ) (r d : PbField), ∀ x ∈ prune fuel r d, ∃ y ∈ (contentOf d).2, Within x y := by
  intro fuel
  induction fuel with
  | zero => exact fun _ _ x hx => ⟨x, hx, .whole⟩
  | succ fuel ih =>
    intro r d x hx
    obtain ⟨y, hy, hleft⟩ := List.mem_filterMap.mp hx
    refine ⟨y, hy, ?_⟩
    unfold left at hleft
    cases hfind : (contentOf r).2.find? fun s => decide (SuitsField s y) with
    | none =>
      rw [hfind] at hleft
      exact Option.some.inj hleft ▸ .whole
    | some s =>
      rw [hfind] at hleft
      have hcut : cut (prune fuel) s y = some x := hleft
      unfold cut at hcut
      split at hcut
      · split at hcut
        · cases hcut
        · exact Option.some.inj hcut ▸ .whole
      split at hcut
      · split at hcut
        · cases hcut
        · exact Option.some.inj hcut ▸ .whole
      split at hcut
      · cases hcut
      · next hne => exact within_withContent (ih s y) hne (Option.some.inj hcut)

namespace KnvNode

variable {n x x₀ c y req s : KnvNode} {f g d r : PbField} {k pk rk known b : Bool} {ms : List PbField} {acc : Deletion}
  {seen : List ℕ} {pos : Option ℕ}

/-! ### Children that go -/

/-- A child is put back. -/
theorem Updating.setChildNode {is : List ((UInt32 × Bytes) × PbField)} (h : Updating n ms is x) (hc : c ∈ x.childlist)
    (hy : Shaped y) (hface : face y = face c) :
    Updating n ms ((x.setChildNode y).childlist.map item) (x.setChildNode y) := by
  have hre : Rehung x (x.setChildNode y) := rehung_setChildNode h.shaped.here hc hface
  refine ⟨h.shaped.setChildNode hy hc hface, ⟨?_, h.indexed.metas, fun hinv => ?_⟩, h.role.trans ⟨rfl, rfl, rfl, rfl⟩, h.key,
    h.type, h.valid, h.expanded, h.led, h.metas, rfl⟩
  · show x.ht.Agrees (x.setChildNode y).look (x.setChildNode y).childAddrs
    rw [hre.childAddrs, hre.look]
    exact h.indexed.ht
  · have hnil := h.indexed.valid hinv
    rw [hnil] at hc
    exact absurd hc List.not_mem_nil

/-- A child is taken out. -/
theorem updating_removeChildByPos (pos : Option ℕ) {is : List ((UInt32 × Bytes) × PbField)} (h : Updating n ms is x)
    (hc : c ∈ x.childlist) (hpos : ∀ hi, pos = some hi → hi = getKeyhash c.tag c.key.bytes x.ht.sz) :
    htEvents (x.removeChildByPos c.self pos).msgs = [] ∧
      (x.removeChildByPos c.self pos).node.childlist = x.childlist.eraseP (fun z => z.self = c.self) ∧
      Updating n ms ((x.removeChildByPos c.self pos).node.childlist.map item) (x.removeChildByPos c.self pos).node := by
  have hnd := h.shaped.here.nodup_children
  have hmem : c.self ∈ x.childAddrs := List.mem_map.mpr ⟨c, hc, rfl⟩
  have hlook : x.look c.self = (c.tag, c.key.bytes) := look_child hnd hc
  have hfewer : ∀ ht : KnvHt, ht.Agrees x.look (x.childAddrs.erase c.self) → ∀ o : ℤ,
      Updating n ms (({ x with ht := ht, childlist := x.childlist.eraseP fun z => z.self = c.self } : KnvNode).childlist.map
        item) (finish { x with ht := ht, childlist := x.childlist.eraseP fun z => z.self = c.self } o).node := by
    intro ht hagrees o
    rw [← childAddrs_erase] at hagrees
    have hfolded : x.expanded = false → x.metalist = [] ∧ (x.childlist.eraseP fun z => z.self = c.self) = [] :=
      fun hf => absurd h.expanded (by simp [hf])
    have hmid : Updating n ms ((x.childlist.eraseP fun z => z.self = c.self).map item)
        { x with ht := ht, childlist := x.childlist.eraseP fun z => z.self = c.self } :=
      ⟨h.shaped.of_sublist hfolded (List.Sublist.refl _) List.eraseP_sublist rfl h.shaped.here.evaluated,
        h.indexed.fewer h.shaped.here _ List.eraseP_sublist hagrees, h.role.trans ⟨rfl, rfl, rfl, rfl⟩, h.key, h.type,
        h.valid, h.expanded, h.led, h.metas, rfl⟩
    exact hmid.finish o
  have hbucket : KnvHt.bucketOf x.look x.ht.sz c.self = getKeyhash c.tag c.key.bytes x.ht.sz := by
    rw [KnvHt.bucketOf, hlook]
  unfold removeChildByPos
  rw [find?_self hnd hc]
  have hchildren := fun (ht : KnvHt) (o : ℤ) => (touched_finish
    { x with ht := ht, childlist := x.childlist.eraseP fun z => z.self = c.self } o).childlist
  cases pos with
  | none =>
    have hnode := hfewer (x.ht.remove c.self c.tag c.key.bytes) (by
      have hrem := h.indexed.ht.remove hmem
      rwa [hlook] at hrem) (if 0 ≤ x.evalSz then -c.evaluateSize.evalSz else 0)
    exact ⟨rfl, hchildren .., by rw [hchildren]; exact hnode⟩
  | some hi =>
    have hnode := hfewer (x.ht.removePos c.self hi) (by
      rw [hpos hi rfl, ← hbucket]
      exact h.indexed.ht.removePos hmem) (if 0 ≤ x.evalSz then -c.evaluateSize.evalSz else 0)
    exact ⟨rfl, hchildren .., by rw [hchildren]; exact hnode⟩

/-- What a child looks like from its parent, and what it is written as. -/
abbrev Shown := (ℕ × UInt32 × KnvKey) × PbField

/-- The entry of a child. -/
def shown (c : KnvNode) : Shown := (c.face, c.toField)

/-- The entries of the child at the address `a` become one of `m`, or none. -/
def trade (a : ℕ) (m : Option PbField) (e : Shown) : Option Shown := if e.1.1 = a then m.map (e.1, ·) else some e

/-- The child at an address has become another, or has gone. -/
structure Traded (a : ℕ) (m : Option PbField) (x x' : KnvNode) : Prop where
  entries : x'.childlist.map shown = (x.childlist.map shown).filterMap (trade a m)
  others : ∀ z ∈ x'.childlist, z.self ≠ a → z ∈ x.childlist

theorem Traded.trans {a : ℕ} {m : Option PbField} (h : Traded a (some f) x x₀) (h' : Traded a m x₀ y) :
    Traded a m x y := by
  refine ⟨?_, fun z hz hne => h.others z (h'.others z hz hne) hne⟩
  rw [h'.entries, h.entries, List.filterMap_filterMap]
  refine List.filterMap_congr fun e _ => ?_
  unfold trade
  by_cases he : e.1.1 = a
  · rw [if_pos he, if_pos he]
    simp [he]
  · rw [if_neg he, if_neg he]
    simp [he]

theorem Traded.of_childlist {a : ℕ} {m : Option PbField} (h : Traded a m x x₀) (hcs : y.childlist = x₀.childlist) :
    Traded a m x y := ⟨hcs ▸ h.entries, hcs ▸ h.others⟩

theorem traded_setChildNode (hnd : x.childAddrs.Nodup) (hc : c ∈ x.childlist) (hface : face y = face c) :
    Traded c.self (some y.toField) x (x.setChildNode y) := by
  have hself : y.self = c.self := congrArg Prod.fst hface
  refine ⟨?_, fun z hz hne => ?_⟩
  · show (x.childlist.map fun z => if z.self = y.self then y else z).map shown = _
    rw [List.map_map, List.filterMap_map, ← List.filterMap_eq_map]
    refine List.filterMap_congr fun z hz => ?_
    simp only [Function.comp_apply, trade]
    by_cases heq : z.self = c.self
    · obtain rfl := List.inj_on_of_nodup_map (f := fun x : KnvNode => x.self) hnd hz hc heq
      rw [if_pos hself.symm, if_pos (show (shown z).1.1 = z.self from rfl), shown, hface]
      rfl
    · rw [if_neg (hself ▸ heq), if_neg (show ¬(shown z).1.1 = c.self from heq)]
  · obtain ⟨w, hw, rfl⟩ := List.mem_map.mp hz
    split at hne
    · exact absurd hself hne
    · next h => rwa [if_neg h]

theorem traded_eraseP {a : ℕ} (hnd : x.childAddrs.Nodup) (hcs : y.childlist = x.childlist.eraseP fun z => z.self = a) :
    Traded a none x y := by
  refine ⟨?_, fun z hz _ => List.mem_of_mem_eraseP (hcs ▸ hz)⟩
  rw [hcs]
  have hnd : (x.childlist.map (·.self)).Nodup := hnd
  generalize x.childlist = l at hnd
  induction l with
  | nil => rfl
  | cons z l ih =>
    obtain ⟨hz, hl⟩ := List.nodup_cons.mp (List.map_cons .. ▸ hnd)
    by_cases ha : z.self = a
    · rw [List.eraseP_cons_of_pos (by simpa using ha), List.map_cons, List.filterMap_cons]
      have hhead : trade a none (shown z) = none := by rw [trade, if_pos (show (shown z).1.1 = a from ha)]; rfl
      rw [hhead]
      rw [List.filterMap_map, ← List.filterMap_eq_map]
      refine List.filterMap_congr fun w hw => (if_neg fun hwa : w.self = a => hz ?_).symm
      exact ha ▸ hwa ▸ List.mem_map_of_mem hw
    · rw [List.eraseP_cons_of_neg (by simpa using ha), List.map_cons, List.map_cons, List.filterMap_cons, ih hl]
      have hhead : trade a none (shown z) = some (shown z) := if_neg ha
      rw [hhead]

/-- What becomes of a child in which a deletion has returned. -/
theorem Updating.settle (h : Updating n ms (x.childlist.map item) x) (hc : c ∈ x.childlist) (ret : ℕ)
    (pos : Option ℕ) (hpos : ∀ hi, pos = some hi → hi = getKeyhash c.tag c.key.bytes x.ht.sz) :
    htEvents (settle pos ret c x).msgs = [] ∧
      Updating n ms ((settle pos ret c x).node.childlist.map item) (settle pos ret c x).node ∧
      Traded c.self (if ret = 1 ∨ (c.getChildNum (n.key.bytes != [])).2 = 0 then none
        else some (c.getChildNum (n.key.bytes != [])).1.toField) x (settle pos ret c x).node := by
  unfold KnvNode.settle
  by_cases hret : ret = 1
  · rw [if_pos hret, if_pos (Or.inl hret)]
    obtain ⟨hquiet, hcs, hnode⟩ := updating_removeChildByPos pos h hc hpos
    exact ⟨hquiet, hnode, traded_eraseP h.shaped.here.nodup_children hcs⟩
  rw [if_neg hret, h.key]
  have hrem := remains_getChildNum (h.shaped.children c hc) (n.key.bytes != [])
  have hset := h.setChildNode hc hrem.shaped hrem.face
  have hrep := traded_setChildNode h.shaped.here.nodup_children hc hrem.face
  simp only [hret, false_or]
  generalize (c.getChildNum (n.key.bytes != [])).1 = c' at hrem hset hrep
  split
  · have hface := hrem.face
    have hself : c'.self = c.self := congrArg Prod.fst hface
    have htag : c'.tag = c.tag := congrArg (fun p => p.2.1) hface
    have hkey : c'.key = c.key := congrArg (fun p => p.2.2) hface
    have hmem : c' ∈ (x.setChildNode c').childlist := List.mem_map.mpr ⟨c, hc, if_pos hself.symm⟩
    obtain ⟨hquiet, hcs, hnode⟩ := updating_removeChildByPos pos hset hmem
      (fun hi hhi => by rw [htag, hkey]; exact hpos hi hhi)
    exact ⟨hquiet, hnode, hrep.trans (traded_eraseP hset.shaped.here.nodup_children (hcs.trans (by rw [hself])))⟩
  · exact ⟨rfl, hset, hrep⟩

/-- What comes of a child in which `DeleteSubTree` has returned: `m` is what is left of its field. -/
structure Prunes (b : Bool) (m : Option PbField) (c : KnvNode) (o : Deletion) : Prop where
  shaped : Shaped o.node
  face : face o.node = face c
  quiet : htEvents o.msgs = []
  ret : ∃ k, o.ret = .ok k ∧ ((k = 1 ∨ (o.node.getChildNum b).2 = 0) ↔ m = none)
  field : ∀ f, m = some f → (o.node.getChildNum b).1.toField = f

/-- How far a deletion in `x₀` has come: its children, but for those at the addresses of `seen`, are as they were. -/
structure Pruning (n x₀ : KnvNode) (ms : List PbField) (es : List Shown) (seen : List ℕ) (acc : Deletion) : Prop where
  ret : acc.ret = .ok 0
  quiet : htEvents acc.msgs = []
  node : Updating n ms (acc.node.childlist.map item) acc.node
  entries : acc.node.childlist.map shown = es
  unseen : ∀ c ∈ acc.node.childlist, c.self ∉ seen → c ∈ x₀.childlist

theorem exists_addMatch (hreq : ∃ m, newTree req.tag (some req.key) = .ok m) (matched sub : Option KnvNode) :
    ∃ m, addMatch req matched sub = .ok m := by
  obtain ⟨t, ht⟩ := hreq
  cases sub with
  | none => exact ⟨_, rfl⟩
  | some c =>
    cases matched with
    | some m => exact ⟨_, rfl⟩
    | none => exact ⟨some (innerInsertChild c true true true t).node, by rw [addMatch, matchTree, ht]; rfl⟩

/-- **A turn of a loop: the deletion in a child.** -/
theorem Pruning.deleteAt (pos : Option ℕ) {es : List Shown} (h : Pruning n x₀ ms es seen acc)
    (hreq : ∃ m, newTree req.tag (some req.key) = .ok m) (hc : c ∈ acc.node.childlist) {m : Option PbField}
    {delete : Bool → KnvNode → Deletion}
    (hdel : Prunes (n.key.bytes != []) m c (delete (n.key.bytes != []) c))
    (hpos : ∀ hi, pos = some hi → hi = getKeyhash c.tag c.key.bytes acc.node.ht.sz) :
    Pruning n x₀ ms (es.filterMap (trade c.self m)) (seen ++ [c.self]) (deleteAt delete req s pos c.self acc) := by
  have hnd := h.node.shaped.here.nodup_children
  have hset := h.node.setChildNode hc hdel.shaped hdel.face
  have hrep := traded_setChildNode hnd hc hdel.face
  unfold KnvNode.deleteAt
  rw [find?_self hnd hc]
  simp only
  rw [h.node.key]
  generalize delete (n.key.bytes != []) c = r at hdel hset hrep ⊢
  have hself : r.node.self = c.self := congrArg Prod.fst hdel.face
  have htag : r.node.tag = c.tag := congrArg (fun p => p.2.1) hdel.face
  have hkey : r.node.key = c.key := congrArg (fun p => p.2.2) hdel.face
  obtain ⟨k, hret, hgone⟩ := hdel.ret
  obtain ⟨matched, hmatched⟩ := exists_addMatch hreq acc.matched r.matched
  simp only [hret, hmatched]
  -- the node hears of the child
  obtain ⟨hht, hups⟩ := ht_handleAll c.self r.msgs (acc.node.setChildNode r.node)
  have htouch := touched_handleAll c.self r.msgs (acc.node.setChildNode r.node)
  rw [hdel.quiet] at hht
  have hback := hset.touched htouch hht
  have hrep' := hrep.of_childlist htouch.childlist
  have hmem : r.node ∈ ((acc.node.setChildNode r.node).handleAll c.self r.msgs).1.childlist := by
    rw [htouch.childlist]
    exact List.mem_map.mpr ⟨c, hc, if_pos hself.symm⟩
  rw [← htouch.childlist] at hback
  generalize (acc.node.setChildNode r.node).handleAll c.self r.msgs = p at hht hups hback hrep' hmem ⊢
  obtain ⟨hquiet, hnode, hsettled⟩ := hback.settle hmem k pos
    fun hi hhi => by rw [htag, hkey, show p.1.ht = acc.node.ht from hht]; exact hpos hi hhi
  rw [hself] at hsettled
  have hm : (if k = 1 ∨ (r.node.getChildNum (n.key.bytes != [])).2 = 0 then none
      else some (r.node.getChildNum (n.key.bytes != [])).1.toField) = m := by
    cases m with
    | none => exact if_pos (hgone.mpr rfl)
    | some f => rw [if_neg fun hg => Option.some_ne_none f (hgone.mp hg), hdel.field f rfl]
  rw [hm] at hsettled
  have hall := hrep'.trans hsettled
  refine ⟨rfl, ?_, hnode, hall.entries.trans (by rw [h.entries]), fun z hz hseen => ?_⟩
  · rw [htEvents_append, htEvents_append, h.quiet, hups, hquiet]
    rfl
  · rw [List.mem_append, not_or] at hseen
    exact h.unseen z (hall.others z hz fun he => hseen.2 (List.mem_singleton.mpr he)) hseen.1

/-- Does an entry suit a child of a request? -/
def SuitsShown (s : PbField) (e : Shown) : Prop :=
  e.1.2.1 = s.tag ∧ ((fieldKey s).bytes ≠ [] → e.1.2.2.bytes = (fieldKey s).bytes)

instance (s : PbField) (e : Shown) : Decidable (SuitsShown s e) := inferInstanceAs (Decidable (_ ∧ (_ → _)))

/-- The turn of a child of a request, said of an entry. -/
def cutShown (below : PbField → PbField → List PbField) (s : PbField) (e : Shown) : Option Shown :=
  if SuitsShown s e then (cut below s e.2).map (e.1, ·) else some e

theorem suitsShown_iff (hs : FromField false f s) (hf : f.norm = f) : SuitsShown f (shown c) ↔ Suits s c := by
  rw [Suits, SuitsShown, hs.tag, hs.key hf]
  rfl

/-- **The loop over the children that suit a child of a request.** -/
theorem Pruning.each (delete : Bool → KnvNode → Deletion) {m : PbField → Option PbField}
    (hreq : ∃ m, newTree req.tag (some req.key) = .ok m) :
    ∀ {as : List ℕ} {acc : Deletion} {es : List Shown} {seen : List ℕ}, as.Nodup → Pruning n x₀ ms es seen acc →
    (∀ a ∈ as, a ∉ seen ∧ a ∈ es.map (·.1.1)) →
    (∀ c ∈ x₀.childlist, c.self ∈ as → Prunes (n.key.bytes != []) (m c.toField) c (delete (n.key.bytes != []) c)) →
    Pruning n x₀ ms (es.filterMap fun e => if e.1.1 ∈ as then (m e.2).map (e.1, ·) else some e) (seen ++ as)
      (Deletion.each (KnvNode.deleteAt delete req s none) as acc) := by
  intro as
  induction as with
  | nil =>
    intro acc es seen _ h _ _
    have hsame : (es.filterMap fun e => if e.1.1 ∈ ([] : List ℕ) then (m e.2).map (e.1, ·) else some e) = es := by
      simp
    rw [hsame, List.append_nil]
    exact h
  | cons a as ih =>
    intro acc es seen hnd h has hdel
    obtain ⟨hunseen, hmem⟩ := has a (List.mem_cons_self ..)
    obtain ⟨ha, hnd'⟩ := List.nodup_cons.mp hnd
    obtain ⟨e, he, rfl⟩ := List.mem_map.mp hmem
    rw [← h.entries] at he
    obtain ⟨c, hc, rfl⟩ := List.mem_map.mp he
    have hc₀ := h.unseen c hc hunseen
    have hstep := h.deleteAt (s := s) none hreq hc (hdel c hc₀ (List.mem_cons_self ..)) fun _ hhi => by cases hhi
    have hothers : ∀ b ∈ as, b ∉ seen ++ [c.self] ∧ b ∈ (es.filterMap (trade c.self (m c.toField))).map (·.1.1) := by
      intro b hb
      obtain ⟨hbs, hbm⟩ := has b (List.mem_cons_of_mem _ hb)
      have hne : b ≠ c.self := fun heq => ha (show c.self ∈ as from heq ▸ hb)
      refine ⟨fun hm => ?_, ?_⟩
      · rcases List.mem_append.mp hm with hm | hm
        · exact hbs hm
        · exact hne (List.mem_singleton.mp hm)
      · obtain ⟨e, he, rfl⟩ := List.mem_map.mp hbm
        exact List.mem_map.mpr ⟨e, List.mem_filterMap.mpr ⟨e, he, if_neg hne⟩, rfl⟩
    have hrest := ih hnd' hstep hothers fun z hz hza => hdel z hz (List.mem_cons_of_mem _ hza)
    rw [List.filterMap_filterMap, List.append_assoc] at hrest
    rw [Deletion.each]
    have hret : (KnvNode.deleteAt delete req s none (shown c).1.1 acc).ret = .ok 0 := hstep.ret
    simp only [hret]
    have hentries : (es.filterMap fun e => (trade c.self (m c.toField) e).bind fun e =>
        if e.1.1 ∈ as then (m e.2).map (e.1, ·) else some e) =
        es.filterMap fun e => if e.1.1 ∈ (shown c).1.1 :: as then (m e.2).map (e.1, ·) else some e := by
      refine List.filterMap_congr fun e he => ?_
      rw [← h.entries] at he
      obtain ⟨z, hz, rfl⟩ := List.mem_map.mp he
      unfold trade
      by_cases hself : z.self = c.self
      · obtain rfl := List.inj_on_of_nodup_map (f := fun x : KnvNode => x.self) h.node.shaped.here.nodup_children hz hc hself
        rw [if_pos (show (shown z).1.1 = z.self from rfl), if_pos (List.mem_cons_self ..)]
        cases hm : m z.toField with
        | none => rw [show m (shown z).2 = none from hm]; rfl
        | some f =>
          rw [show m (shown z).2 = some f from hm]
          exact if_neg ha
      · rw [if_neg (show ¬(shown z).1.1 = c.self from hself), Option.bind_some]
        have hiff : (shown z).1.1 ∈ (shown c).1.1 :: as ↔ (shown z).1.1 ∈ as :=
          List.mem_cons.trans (or_iff_right hself)
        simp only [hiff]
    rw [← hentries]
    exact hrest

/-- A node can be copied when it has been looked into. -/
theorem FromField.exists_innerDuplicate (h : FromField k g n) (hg : Genuine g) (pk k' : Bool) :
    ∃ d, (n.innerExpand pk k').innerDuplicate false = .ok d := by
  have hsame := expandSame pk k' n
  by_cases hexp : n.expanded = true
  · rw [innerExpand_of_expanded hexp]
    exact ⟨_, h.innerDuplicate hg false⟩
  · have hne : ¬Emptied (n.innerExpand pk k') := by
      rintro ⟨ht, hstr, -⟩
      rw [hsame.type, h.type] at ht
      rw [hsame.val, h.val hg.norm] at hstr
      obtain ⟨a, rfl⟩ := h
      refine hexp ?_
      have hpick : (g.val.pick g.type).str = [] := by rw [ht, PbVal.pick_string]; exact hstr
      simp [ofField, sized, initNode, KnvNode.at', ht, hstr]
    rw [Emptied] at hne
    rw [KnvNode.innerDuplicate, if_neg hne]
    exact ⟨_, rfl⟩

theorem asksWhole_iff_content (hs : FromField false f s) (hf : Genuine f) (htag : ¬(f.tag = 1 ∧ rk = true)) :
    s.asksWhole rk = true ↔ (contentOf f).2 = [] := by
  rw [asksWhole_iff]
  exact nil_iff_nil (hs.opened hf htag false).2

/-- What the children have that a leaf without a key has asked for. -/
theorem Pruning.deleteByTag {es : List Shown} {below : PbField → PbField → List PbField} {pl : Place}
    (h : Pruning n x₀ ms es seen acc) (hreq : ∃ m, newTree req.tag (some req.key) = .ok m) (hs : FromField false f s)
    (hf : Genuine f) (hkey : (fieldKey f).bytes = []) (hnil : (contentOf f).2 = []) :
    Pruning n x₀ ms (es.filterMap (cutShown below f)) seen (deleteByTag pl req (s.innerExpand rk false) acc) := by
  have hsame := expandSame rk false s
  have hsuits : ∀ e : Shown, SuitsShown f e ↔ e.1.2.1 = f.tag := fun e =>
    ⟨fun he => he.1, fun he => ⟨he, fun hne => absurd hkey hne⟩⟩
  have hcut : ∀ g, cut below f g = if f.type = .string ∨ f.type = .varint ∧ f.val.i64 ≠ 0 then none else some g := by
    intro g
    rw [cut, if_neg fun hc => hc.1 hkey, if_pos hnil]
  unfold KnvNode.deleteByTag
  rw [hsame.type, hsame.val, hsame.tag, hs.type, hs.val hf.norm, hs.tag]
  by_cases hask : f.type = .string ∨ f.type = .varint ∧ f.val.i64 ≠ 0
  · obtain ⟨hquiet, hnode⟩ : _ ∧ Updating n ms _ (acc.node.removeChildrenByTag f.tag pl).node :=
      updating_dropTag h.node f.tag
    have hvalid : acc.node.isValid = true := by
      rw [isValid, h.node.role.tag]
      exact h.node.valid
    obtain ⟨-, -, hcs⟩ := remains_removeChildrenByTag h.node.shaped hvalid h.node.expanded f.tag pl
    obtain ⟨m, hm⟩ : ∃ m, matchTree req acc.matched = .ok m := by
      cases hmatched : acc.matched with
      | none => exact hreq
      | some m => exact ⟨m, rfl⟩
    obtain ⟨d, hd⟩ := hs.exists_innerDuplicate hf rk false
    have hins : (innerInsertChild (s.innerExpand rk false) false true true m).ret = .ok 0 := by
      unfold innerInsertChild
      simp only [Bool.not_true, Bool.false_eq_true, if_false, hd]
      rfl
    rw [if_pos hask]
    simp only [hm, hins]
    refine ⟨rfl, ?_, ?_, ?_, fun c hc hc' => ?_⟩
    · rw [htEvents_append, h.quiet]
      exact hquiet
    · rw [← hnode.items] at hnode
      exact hnode
    · show (acc.node.removeChildrenByTag f.tag pl).node.childlist.map shown = _
      rw [hcs, ← h.entries, List.filterMap_map, ← List.filterMap_eq_map, List.filterMap_filter]
      refine List.filterMap_congr fun c _ => ?_
      simp only [Function.comp_apply, cutShown, hsuits, hcut, if_pos hask, Option.map_none]
      by_cases ht : c.tag = f.tag
      · simp [shown, KnvNode.face, ht]
      · simp [shown, KnvNode.face, ht]
    · have hc : c ∈ (acc.node.removeChildrenByTag f.tag pl).node.childlist := hc
      rw [hcs] at hc
      exact h.unseen c (List.mem_of_mem_filter hc) hc'
  · rw [if_neg hask]
    have hkeep : es.filterMap (cutShown below f) = es := by
      have hid : ∀ e : Shown, cutShown below f e = some e := by
        intro e
        rw [cutShown, hcut, if_neg hask]
        split
        · rfl
        · rfl
      rw [List.filterMap_congr fun e _ => hid e]
      simp
    rw [hkeep]
    exact h

/-- **A turn of the loop over the children of a request.** -/
theorem Pruning.deleteChild (pl : Place) {es : List Shown} {below : PbField → PbField → List PbField}
    {delete : KnvNode → Bool → KnvNode → Deletion} (h : Pruning n x₀ ms es seen acc)
    (hreq : ∃ m, newTree req.tag (some req.key) = .ok m) (hs : FromField false f s) (hf : Genuine f)
    (htag : ¬f.tag ≤ ucMaxMetaNum)
    (hdelete : ∀ c ∈ x₀.childlist, Suits s c → ((contentOf f).2 = [] → (fieldKey f).bytes ≠ []) →
      Prunes (n.key.bytes != []) (cut below f c.toField) c (delete s (n.key.bytes != []) c))
    (hnd₀ : x₀.childAddrs.Nodup)
    (hone : (fieldKey f).bytes ≠ [] → ∀ y ∈ x₀.childlist, ∀ z ∈ x₀.childlist, Suits s y → Suits s z → y = z)
    (hseen : ∀ c ∈ acc.node.childlist, Suits s c → c.self ∉ seen) :
    ∃ seen', Pruning n x₀ ms (es.filterMap (cutShown below f)) (seen ++ seen') (deleteChild delete pl req s acc) ∧
      ∀ a ∈ seen', ∃ c ∈ acc.node.childlist, c.self = a ∧ Suits s c := by
  have hnd := h.node.shaped.here.nodup_children
  have hkey : s.key = fieldKey f := hs.key hf.norm
  have hshown : ∀ c, SuitsShown f (shown c) ↔ Suits s c := fun c => suitsShown_iff hs hf.norm
  unfold KnvNode.deleteChild
  by_cases hk : s.key.bytes ≠ []
  · rw [if_pos hk]
    cases hget : acc.node.ht.get acc.node.look s.tag s.key.bytes with
    | none =>
      have hnone := h.node.indexed.ht.get_eq_none_iff.mp hget
      refine ⟨[], ?_, fun a ha => absurd ha List.not_mem_nil⟩
      have hkeep : es.filterMap (cutShown below f) = es.filterMap some := by
        refine List.filterMap_congr fun e he => ?_
        rw [← h.entries] at he
        obtain ⟨c, hc, rfl⟩ := List.mem_map.mp he
        refine if_neg fun hsuit => ?_
        obtain ⟨ht, hb⟩ := (hshown c).mp hsuit
        refine hnone c.self (List.mem_map.mpr ⟨c, hc, rfl⟩) ?_
        rw [look_child hnd hc, ht, hb hk]
      rw [hkeep, List.filterMap_some, List.append_nil]
      exact h
    | some a =>
      obtain ⟨ha, hlook⟩ := h.node.indexed.ht.of_get hget
      obtain ⟨c, hc, rfl⟩ := List.mem_map.mp ha
      rw [look_child hnd hc] at hlook
      have hsuit : Suits s c := ⟨congrArg Prod.fst hlook, fun _ => congrArg Prod.snd hlook⟩
      have hc₀ := h.unseen c hc (hseen c hc hsuit)
      have hstep := h.deleteAt (s := s) (some (getKeyhash s.tag s.key.bytes acc.node.ht.sz)) hreq hc
        (hdelete c hc₀ hsuit fun _ => hkey ▸ hk) fun hi hhi => by
          rw [← Option.some.inj hhi, show c.tag = s.tag from congrArg Prod.fst hlook,
            show c.key.bytes = s.key.bytes from congrArg Prod.snd hlook]
      refine ⟨[c.self], ?_, fun a ha => ⟨c, hc, (List.mem_singleton.mp ha).symm, hsuit⟩⟩
      have hentries : es.filterMap (cutShown below f) = es.filterMap (trade c.self (cut below f c.toField)) := by
        refine List.filterMap_congr fun e he => ?_
        rw [← h.entries] at he
        obtain ⟨z, hz, rfl⟩ := List.mem_map.mp he
        unfold trade cutShown
        by_cases hself : z.self = c.self
        · obtain rfl := List.inj_on_of_nodup_map (f := fun x : KnvNode => x.self) hnd hz hc hself
          rw [if_pos ((hshown z).mpr hsuit), if_pos (show (shown z).1.1 = z.self from rfl)]
          rfl
        · rw [if_neg (show ¬(shown z).1.1 = c.self from hself), if_neg fun hsz => ?_]
          have hsz := (hshown z).mp hsz
          have hsame := hone (hkey ▸ hk) z (h.unseen z hz (hseen z hz hsz)) c hc₀ hsz hsuit
          exact hself (congrArg (fun w : KnvNode => w.self) hsame)
      rw [hentries]
      exact hstep
  · rw [if_neg hk]
    have hk' : (fieldKey f).bytes = [] := hkey ▸ not_not.mp hk
    have hwhole : s.asksWhole (req.key.bytes != []) = true ↔ _ :=
      asksWhole_iff_content hs hf fun h1 => htag (h1.1 ▸ by decide)
    by_cases hnil : (contentOf f).2 = []
    · rw [if_pos (hwhole.mpr hnil)]
      refine ⟨[], ?_, fun a ha => absurd ha List.not_mem_nil⟩
      rw [List.append_nil]
      exact h.deleteByTag hreq hs hf hk' hnil
    · rw [if_neg fun hw => hnil (hwhole.mp hw)]
      have hsuits : ∀ c, c.tag = s.tag ↔ Suits s c := fun c => ⟨fun ht => ⟨ht, fun hne => absurd hne hk⟩, fun ht => ht.1⟩
      have hasnd : ((acc.node.childlist.filter fun c => c.tag = s.tag).map (·.self)).Nodup :=
        hnd.sublist (List.filter_sublist.map _)
      have hmem : ∀ a ∈ (acc.node.childlist.filter fun c => c.tag = s.tag).map (·.self),
          ∃ c ∈ acc.node.childlist, c.self = a ∧ Suits s c := by
        intro a ha
        obtain ⟨c, hc, rfl⟩ := List.mem_map.mp ha
        obtain ⟨hcm, ht⟩ := List.mem_filter.mp hc
        exact ⟨c, hcm, rfl, (hsuits c).mp (of_decide_eq_true ht)⟩
      refine ⟨_, ?_, hmem⟩
      have hloop := Pruning.each (delete s) (s := s) (m := cut below f) hreq hasnd h (fun a ha => by
          obtain ⟨c, hc, rfl, hsuit⟩ := hmem a ha
          refine ⟨hseen c hc hsuit, ?_⟩
          rw [← h.entries]
          exact List.mem_map.mpr ⟨shown c, List.mem_map_of_mem hc, rfl⟩)
        fun c hc₀ hca => by
          obtain ⟨z, hz, hself, hsuit⟩ := hmem _ hca
          have hz₀ := h.unseen z hz (hseen z hz hsuit)
          obtain rfl := List.inj_on_of_nodup_map (f := fun x : KnvNode => x.self) hnd₀ hz₀ hc₀ hself
          exact hdelete z hz₀ hsuit fun h0 => absurd h0 hnil
      have hentries : es.filterMap (cutShown below f) = es.filterMap fun e =>
          if e.1.1 ∈ (acc.node.childlist.filter fun c => c.tag = s.tag).map (·.self) then
            (cut below f e.2).map (e.1, ·) else some e := by
        refine List.filterMap_congr fun e he => ?_
        rw [← h.entries] at he
        obtain ⟨z, hz, rfl⟩ := List.mem_map.mp he
        have hiff : (shown z).1.1 ∈ (acc.node.childlist.filter fun c => c.tag = s.tag).map (·.self) ↔
            SuitsShown f (shown z) := by
          rw [hshown]
          refine ⟨fun ha => ?_, fun hsuit => ?_⟩
          · obtain ⟨c, hc, hself, hsuit⟩ := hmem _ ha
            obtain rfl := List.inj_on_of_nodup_map (f := fun x : KnvNode => x.self) hnd hc hz hself
            exact hsuit
          · exact List.mem_map.mpr ⟨z, List.mem_filter.mpr ⟨hz, decide_eq_true hsuit.1⟩, rfl⟩
        simp only [cutShown, hiff]
      rw [hentries]
      exact hloop

/-- **The loop over the children of a request.** -/
theorem Pruning.deleteChildren (below : PbField → PbField → List PbField) (pl : Place)
    (delete : KnvNode → Bool → KnvNode → Deletion) (hreq : ∃ m, newTree req.tag (some req.key) = .ok m)
    (hnd₀ : x₀.childAddrs.Nodup) {fs : List PbField} {l : List KnvNode} (hl : List.Forall₂ (FromField false) fs l) :
    ∀ {acc : Deletion} {es : List Shown} {seen : List ℕ}, (∀ f ∈ fs, Genuine f ∧ ¬f.tag ≤ ucMaxMetaNum) →
    fs.Pairwise ApartFields →
    (∀ f ∈ fs, ∀ s, FromField false f s → ∀ c ∈ x₀.childlist, Suits s c → ((contentOf f).2 = [] → (fieldKey f).bytes ≠ []) →
      Prunes (n.key.bytes != []) (cut below f c.toField) c (delete s (n.key.bytes != []) c)) →
    (∀ f ∈ fs, ∀ s, FromField false f s → (fieldKey f).bytes ≠ [] → ∀ y ∈ x₀.childlist, ∀ z ∈ x₀.childlist, Suits s y →
      Suits s z → y = z) →
    (∀ s ∈ l, ∀ c ∈ acc.node.childlist, Suits s c → c.self ∉ seen) → Pruning n x₀ ms es seen acc →
    ∃ seen', Pruning n x₀ ms (fs.foldl (fun es f => es.filterMap (cutShown below f)) es) seen'
      (Deletion.each (KnvNode.deleteChild delete pl req) l acc) := by
  induction hl with
  | nil => exact fun _ _ _ _ _ h => ⟨_, h⟩
  | @cons f s fs l hs hl ih =>
    intro acc es seen hgen hap hdelete hone hseen h
    have hap' := List.pairwise_cons.mp hap
    obtain ⟨hf, htag⟩ := hgen f (List.mem_cons_self ..)
    have hnd := h.node.shaped.here.nodup_children
    obtain ⟨seen', hstep, hnew⟩ := h.deleteChild pl hreq hs hf htag (hdelete f (List.mem_cons_self ..) s hs) hnd₀
      (hone f (List.mem_cons_self ..) s hs) (hseen s (List.mem_cons_self ..))
    rw [Deletion.each]
    simp only [hstep.ret]
    refine ih (fun g hg => hgen g (List.mem_cons_of_mem _ hg)) hap'.2 (fun g hg => hdelete g (List.mem_cons_of_mem _ hg))
      (fun g hg => hone g (List.mem_cons_of_mem _ hg)) (fun o ho c hc hsuit hmem => ?_) hstep
    -- the child was there before
    obtain ⟨z, hz, hface⟩ : ∃ z ∈ acc.node.childlist, z.face = c.face := by
      have hm : shown c ∈ es.filterMap (cutShown below f) := by
        rw [← hstep.entries]
        exact List.mem_map_of_mem hc
      obtain ⟨e, he, hcut⟩ := List.mem_filterMap.mp hm
      rw [← h.entries] at he
      obtain ⟨z, hz, rfl⟩ := List.mem_map.mp he
      refine ⟨z, hz, ?_⟩
      unfold cutShown at hcut
      split at hcut
      · obtain ⟨g, -, hg⟩ := Option.map_eq_some_iff.mp hcut
        exact congrArg Prod.fst hg
      · exact congrArg Prod.fst (Option.some.inj hcut)
    have hself : z.self = c.self := congrArg Prod.fst hface
    have ht : z.tag = c.tag := congrArg (fun p => p.2.1) hface
    have hk : z.key = c.key := congrArg (fun p => p.2.2) hface
    have hsz : Suits o z := by
      rw [Suits, ht, hk]
      exact hsuit
    rcases List.mem_append.mp hmem with hmem | hmem
    · exact hseen o (List.mem_cons_of_mem _ ho) z hz hsz (hself ▸ hmem)
    · obtain ⟨w, hw, hws, hsw⟩ := hnew _ hmem
      obtain rfl := List.inj_on_of_nodup_map (f := fun x : KnvNode => x.self) hnd hw hz (hws.trans hself.symm)
      obtain ⟨g, hg, hgo⟩ := exists_fromField hl ho
      have hgn := (hgen g (List.mem_cons_of_mem _ hg)).1.norm
      obtain ⟨hkf, hkg, hne⟩ := hap'.1 g hg (by rw [← hs.tag, ← hgo.tag, ← hsw.1, ← hsz.1])
      rw [← hs.key hf.norm] at hkf hne
      rw [← hgo.key hgn] at hkg hne
      exact hne ((hsw.2 hkf).symm.trans (hsz.2 hkg))

/-- The children of a request, one after the other, leave of an entry what is left of it for all of them. -/
theorem foldl_cutShown (below : PbField → PbField → List PbField) : ∀ {fs : List PbField} (es : List Shown),
    fs.Pairwise ApartFields → fs.foldl (fun es f => es.filterMap (cutShown below f)) es =
      es.filterMap fun e => ((fs.find? fun f => SuitsShown f e).elim (some e.2) fun f => cut below f e.2).map (e.1, ·) := by
  intro fs
  induction fs with
  | nil =>
    intro es _
    simp
  | cons f fs ih =>
    intro es hap
    obtain ⟨hfirst, hap'⟩ := List.pairwise_cons.mp hap
    rw [List.foldl_cons, ih _ hap', List.filterMap_filterMap]
    refine List.filterMap_congr fun e _ => ?_
    unfold cutShown
    by_cases hsuit : SuitsShown f e
    · rw [if_pos hsuit, List.find?_cons_of_pos (by simpa using hsuit)]
      have hnone : ∀ g, (fs.find? fun t => SuitsShown t (e.1, g)) = none := fun g => by
        refine List.find?_eq_none.mpr fun t ht hst => ?_
        have hst : SuitsShown t (e.1, g) := of_decide_eq_true hst
        obtain ⟨hkf, hkt, hne⟩ := hfirst t ht (hsuit.1.symm.trans hst.1)
        exact hne ((hsuit.2 hkf).symm.trans (hst.2 hkt))
      cases hcut : cut below f e.2 with
      | none => simp [hcut]
      | some g => simp [hcut, hnone]
    · rw [if_neg hsuit, List.find?_cons_of_neg (by simpa using hsuit), Option.bind_some]

/-! ### Whole deletions -/

/-- What a deletion in a field with content leaves. -/
structure Left (d : PbField) (cs : List PbField) (n : KnvNode) (o : Deletion) : Prop where
  ret : o.ret = .ok (if cs = [] then 1 else 0)
  quiet : htEvents o.msgs = []
  shaped : Shaped o.node
  face : face o.node = KnvNode.face n
  expanded : o.node.expanded = true
  nil : o.node.childlist = [] ↔ cs = []
  field : cs ≠ [] → o.node.toField = withContent d (contentOf d).1 cs

theorem getChildNum_expanded (hexp : x.expanded = true) (b : Bool) : x.getChildNum b = (x, x.childlist.length) := by
  have hopen : (if x.isValid then x.innerExpand b false else x) = x := by
    rw [innerExpand_of_expanded hexp, ite_self]
  unfold getChildNum
  simp only [hopen, childNum, if_pos hexp]
  rfl

/-- **A field with content is asked for a part of it.** -/
theorem left_content (known : Bool) {fuel : ℕ} (hreq : FromField false r req) (hr : Genuine r)
    (hrt : ¬(r.tag = 1 ∧ rk = true)) (hn : FromField (!known) d n) (hd : Genuine d)
    (hdt : ¬(d.tag = 1 ∧ pk = true)) (htag : d.tag = r.tag) (hknown : known = false → (fieldKey r).bytes = [])
    (hkey : (fieldKey r).bytes ≠ [] → fieldKey d = fieldKey r)
    (hrne : (contentOf r).2 ≠ []) (hdne : (contentOf d).2 ≠ []) (hans : Answerable false (fuel + 1) r d)
    (hbelow : ∀ f ∈ (contentOf r).2, ∀ g ∈ (contentOf d).2, SuitsField f g → ∀ s c, FromField false f s →
      FromField (!looksAtKeys r) g c → ((contentOf f).2 = [] → (fieldKey f).bytes ≠ []) →
      Prunes (n.key.bytes != []) (cut (prune fuel) f g) c
        (deleteSubTreeFuel fuel (req.key.bytes != []) s (n.key.bytes != []) c)) :
    Left d (prune (fuel + 1) r d) n (deleteSubTreeFuel (fuel + 1) rk req pk n) := by
  obtain ⟨-, -, hap, hsingle⟩ := hans hrne hdne
  obtain ⟨hrms, hrcs⟩ := hreq.opened hr hrt false
  obtain ⟨hms, hcs⟩ := hn.opened hd hdt (!looksAtKeys r)
  have h0 : req.tag ≠ 0 := bne_iff_ne.mp (hreq.valid hr.ok)
  have hother : ¬(n.tag ≠ req.tag ∨ (req.key.bytes ≠ [] ∧ n.key ≠ req.key)) := by
    rw [hn.tag, hreq.tag, hreq.key hr.norm, not_or, not_not]
    refine ⟨htag, fun hne => hne.2 ?_⟩
    cases known with
    | false => exact absurd (hknown rfl) hne.1
    | true => rw [(show FromField false d n from hn).key hd.norm, hkey hne.1]
  have hwhole : ¬req.asksWhole rk = true := fun h => hrne ((asksWhole_iff_content hreq hr hrt).mp h)
  have hsame := expandSame rk false req
  have hmade : Made req := by
    obtain ⟨a, rfl⟩ := hreq
    exact ⟨r, _, a, rfl⟩
  have hroot : ∃ m, newTree (req.innerExpand rk false).tag (some (req.innerExpand rk false).key) = .ok m := by
    rw [hsame.tag, hsame.key]
    obtain ⟨t, ht, -⟩ := asking_newTree h0 hmade.canonical
    exact ⟨t, ht⟩
  have hnum : ¬(n.innerExpand pk (!looksAtKeys r)).childNum ≤ 0 := fun hle =>
    hdne ((nil_iff_nil hcs).mp ((childNum_nonpos_iff (innerExpand_expanded ..)).mp hle))
  have hnode : Updating n (contentOf d).1 ((n.innerExpand pk (!looksAtKeys r)).childlist.map item)
      (n.innerExpand pk (!looksAtKeys r)) := updating_opened hn hd hdt (type_of_content hdne) _
  have hgen : ∀ g ∈ (contentOf d).2, g.norm = g := fun g hg => (hd.below.2 g hg).1.norm
  have hsuits : ∀ f ∈ (contentOf r).2, ∀ s, FromField false f s → ∀ g ∈ (contentOf d).2, ∀ c,
      FromField (!looksAtKeys r) g c → (Suits s c ↔ SuitsField f g) := fun f hf s hs g hg c hc =>
    suits_iff hs (hr.below.2 f hf).1.norm hc (hd.below.2 g hg).1.norm fun hk => key_of_not_looksAtKeys hk hf
  have hstart : Pruning n (n.innerExpand pk (!looksAtKeys r)) (contentOf d).1
      ((n.innerExpand pk (!looksAtKeys r)).childlist.map shown) [] { node := n.innerExpand pk (!looksAtKeys r) } :=
    ⟨rfl, rfl, hnode, rfl, fun c hc _ => hc⟩
  obtain ⟨seen, hloop⟩ := Pruning.deleteChildren (prune fuel) ⟨pk, false⟩
    (deleteSubTreeFuel fuel (req.key.bytes != [])) hroot hnode.shaped.here.nodup_children hrcs
    (fun f hf => hr.below.2 f hf) hap (fun f hf s hs c hc hsuit hleaf => by
      obtain ⟨g, hg, hgc⟩ := exists_fromField hcs hc
      rw [hgc.toField (hd.below.2 g hg).1.norm]
      exact hbelow f hf g hg ((hsuits f hf s hs g hg c hgc).mp hsuit) s c hs hgc hleaf)
    (fun f hf s hs hne y hy z hz hsy hsz => by
      have hone := (hsingle f hf).1 (.inr hne)
      rw [← map_toField hcs hgen, List.filter_map, List.length_map] at hone
      have hmem : ∀ c ∈ (n.innerExpand pk (!looksAtKeys r)).childlist, Suits s c →
          c ∈ (n.innerExpand pk (!looksAtKeys r)).childlist.filter ((fun g => decide (SuitsField f g)) ∘ toField) := by
        intro c hc hsuit
        obtain ⟨g, hg, hgc⟩ := exists_fromField hcs hc
        refine List.mem_filter.mpr ⟨hc, decide_eq_true ?_⟩
        rw [hgc.toField (hgen g hg)]
        exact (hsuits f hf s hs g hg c hgc).mp hsuit
      have hy := hmem y hy hsy
      have hz := hmem z hz hsz
      generalize (n.innerExpand pk (!looksAtKeys r)).childlist.filter _ = l at hone hy hz
      rcases l with _ | ⟨a, _ | ⟨b, l⟩⟩
      · exact absurd hy List.not_mem_nil
      · rw [List.mem_singleton.mp hy, List.mem_singleton.mp hz]
      · simp at hone)
    (fun _ _ _ _ _ => List.not_mem_nil) hstart
  rw [foldl_cutShown _ _ hap] at hloop
  have hchildren : (Deletion.each (KnvNode.deleteChild (deleteSubTreeFuel fuel (req.key.bytes != [])) ⟨pk, false⟩
      (req.innerExpand rk false)) (req.innerExpand rk false).childlist
      { node := n.innerExpand pk (!looksAtKeys r) }).node.childlist.map toField = prune (fuel + 1) r d := by
    have hsnd := congrArg (List.map Prod.snd) hloop.entries
    rw [List.map_map, List.map_filterMap, List.filterMap_map] at hsnd
    rw [prune, ← map_toField hcs hgen, List.filterMap_map]
    refine Eq.trans hsnd (List.filterMap_congr fun c hc => ?_)
    obtain ⟨g, hg, hgc⟩ := exists_fromField hcs hc
    have hfind : ((contentOf r).2.find? fun f => SuitsShown f (shown c)) =
        (contentOf r).2.find? fun f => SuitsField f c.toField := by
      refine List.find?_congr fun f hf => decide_eq_decide.mpr ?_
      have hfs := fromField_ofField f false
      rw [suitsShown_iff hfs (hr.below.2 f hf).1.norm, hgc.toField (hgen g hg)]
      exact hsuits f hf _ hfs g hg c hgc
    simp only [Function.comp_apply, hfind, left]
    cases ((contentOf r).2.find? fun f => SuitsField f c.toField) with
    | none => rfl
    | some f =>
      show Option.map Prod.snd (Option.map (fun x => ((shown c).1, x)) (cut (prune fuel) f c.toField)) = _
      rw [Option.map_map]
      exact Option.map_id'
  have hrun : deleteSubTreeFuel (fuel + 1) rk req pk n =
      { Deletion.each (KnvNode.deleteChild (deleteSubTreeFuel fuel (req.key.bytes != [])) ⟨pk, false⟩
          (req.innerExpand rk false)) (req.innerExpand rk false).childlist { node := n.innerExpand pk (!looksAtKeys r) } with
        ret := .ok (if prune (fuel + 1) r d = [] then 1 else 0) } := by
    rw [deleteSubTreeFuel, if_neg h0, if_neg hother, if_neg hwhole]
    simp only
    rw [hreq.childHasKey hr hrt hrne, if_neg hnum, hsame.key]
    simp only [hloop.ret, getChildNum_expanded hloop.node.expanded]
    have hlen : ((Deletion.each (KnvNode.deleteChild (deleteSubTreeFuel fuel (req.key.bytes != [])) ⟨pk, false⟩
        (req.innerExpand rk false)) (req.innerExpand rk false).childlist
        { node := n.innerExpand pk (!looksAtKeys r) }).node.childlist.length = 0) ↔ prune (fuel + 1) r d = [] := by
      rw [← hchildren, List.length_eq_zero_iff, List.map_eq_nil_iff]
    simp only [hlen]
  rw [hrun]
  generalize Deletion.each _ _ _ = o at hloop hchildren
  have hnil : o.node.childlist = [] ↔ prune (fuel + 1) r d = [] := by
    rw [← hchildren, List.map_eq_nil_iff]
  refine ⟨rfl, hloop.quiet, hloop.node.shaped, ?_, hloop.node.expanded, hnil, fun hne => ?_⟩
  · exact Prod.ext hloop.node.role.self (Prod.ext hloop.node.role.tag hloop.node.key)
  · rw [hloop.node.toField fun h => hne (hnil.mp h), List.map_map, hn.tag, withContent, ← type_of_content hdne,
      show o.node.childlist.map (Prod.snd ∘ item) = prune (fuel + 1) r d from hchildren]

/-- Looking into a node does not change what it is written as. -/
theorem FromField.toField_innerExpand (h : FromField k d n) (hd : Genuine d) (hdt : ¬(d.tag = 1 ∧ pk = true)) (k' : Bool) :
    (n.innerExpand pk k').toField = d := by
  obtain ⟨hms, hcs⟩ := h.opened hd hdt k'
  have hsame := expandSame pk k' n
  have hfields : ((n.innerExpand pk k').childlist.map item).map Prod.snd = (contentOf d).2 := by
    rw [List.map_map]
    exact map_toField hcs fun g hg => (hd.below.2 g hg).1.norm
  by_cases hnil : (contentOf d).1 = [] ∧ (contentOf d).2 = []
  · rw [hnil.1, List.forall₂_nil_left_iff] at hms
    rw [hnil.2, List.forall₂_nil_left_iff] at hcs
    rw [toField_leaf (isFolded_of_nil hms hcs), hsame.tag, hsame.type, hsame.val, h.tag, h.type, h.val hd.norm]
    exact hd.norm
  · rcases hd.content with hnone | ⟨ht, hstr, -⟩
    · exact absurd (by rw [hnone]; exact ⟨rfl, rfl⟩) hnil
    · have hup := updating_opened h hd hdt ht k'
      have hfold : (n.innerExpand pk k').isFolded = false := by
        rw [isFolded, hsame.type, h.type, ht, innerExpand_expanded]
        cases hl : (n.innerExpand pk k').metalist with
        | nil =>
          cases hl' : (n.innerExpand pk k').childlist with
          | nil => exact absurd ⟨(nil_iff_nil hms).mp hl, (nil_iff_nil hcs).mp hl'⟩ hnil
          | cons _ _ => rfl
        | cons _ _ => simp
      rw [hup.toField_of_not_folded hfold, hfields, h.tag, ← hstr, ← val_of_string hd.norm ht, ← ht]

/-- A node that has been read from a field, when it is asked for its children. -/
theorem FromField.getChildNum (h : FromField k d n) (hd : Genuine d) (hdt : ¬(d.tag = 1 ∧ pk = true)) :
    ((n.getChildNum pk).2 = 0 ↔ (contentOf d).2 = []) ∧ (n.getChildNum pk).1.toField = d := by
  have hopen : (if n.isValid then n.innerExpand pk false else n) = n.innerExpand pk false := if_pos (h.valid hd.ok)
  obtain ⟨hms, hcs⟩ := h.opened hd hdt false
  unfold KnvNode.getChildNum
  simp only [hopen, childNum, if_pos (innerExpand_expanded ..)]
  refine ⟨?_, h.toField_innerExpand hd hdt false⟩
  rw [← nil_iff_nil hcs, ← List.length_eq_zero_iff]
  omega

/-- What a request and a field have to do with each other is told by their nodes. -/
theorem other_iff (known : Bool) (hreq : FromField false r req) (hr : Genuine r) (hn : FromField (!known) d n)
    (hd : Genuine d) (hknown : known = false → (fieldKey r).bytes = []) :
    (n.tag ≠ req.tag ∨ (req.key.bytes ≠ [] ∧ n.key ≠ req.key)) ↔
      (d.tag ≠ r.tag ∨ ((fieldKey r).bytes ≠ [] ∧ fieldKey d ≠ fieldKey r)) := by
  rw [hn.tag, hreq.tag, hreq.key hr.norm]
  cases known with
  | false => exact or_congr_right ⟨fun h => absurd (hknown rfl) h.1, fun h => absurd (hknown rfl) h.1⟩
  | true => rw [(show FromField false d n from hn).key hd.norm]

theorem type_of_fieldKey (h : (fieldKey r).bytes ≠ []) : r.type = .string := by
  by_contra ht
  rw [fieldKey, if_neg ht] at h
  exact h rfl

/-- **`DeleteSubTree` in a child** takes out what is asked for. -/
theorem prunes_deleteSubTreeFuel : ∀ (fuel : ℕ) {rk pk known : Bool} {r d : PbField} {req n : KnvNode},
    FromField false r req → Genuine r → ¬(r.tag = 1 ∧ rk = true) → FromField (!known) d n → Genuine d →
    ¬(d.tag = 1 ∧ pk = true) → (known = false → (fieldKey r).bytes = []) → r.val.str.length < fuel →
    Answerable false fuel r d → d.tag = r.tag → ((contentOf r).2 = [] → (fieldKey r).bytes ≠ []) →
    Prunes pk (cut (prune fuel) r d) n (deleteSubTreeFuel fuel rk req pk n) := by
  intro fuel
  induction fuel with
  | zero => exact fun _ _ _ _ _ _ _ hlen => absurd hlen (Nat.not_lt_zero _)
  | succ fuel ih =>
    intro rk pk known r d req n hreq hr hrt hn hd hdt hknown hlen hans htag hleaf
    have h0 : req.tag ≠ 0 := bne_iff_ne.mp (hreq.valid hr.ok)
    have hiff := other_iff known hreq hr hn hd hknown
    by_cases hother : (fieldKey r).bytes ≠ [] ∧ fieldKey d ≠ fieldKey r
    · obtain ⟨hnum, hfield⟩ := hn.getChildNum hd hdt
      rw [deleteSubTreeFuel, if_neg h0, if_pos (hiff.mpr (.inr hother)), cut, if_pos hother]
      refine ⟨hn.shaped, rfl, rfl, ⟨0, rfl, ?_⟩, fun f hf => ?_⟩
      · by_cases hdne : (contentOf d).2 = []
        · rw [if_pos hdne]
          exact iff_of_true (.inr (hnum.mpr hdne)) rfl
        · rw [if_neg hdne]
          refine iff_of_false (fun h => ?_) (Option.some_ne_none _)
          rcases h with h | h
          · exact absurd h (by decide)
          · exact hdne (hnum.mp h)
      · split at hf
        · cases hf
        · rw [← Option.some.inj hf]
          exact hfield
    have hsame : ¬(n.tag ≠ req.tag ∨ (req.key.bytes ≠ [] ∧ n.key ≠ req.key)) := by
      rw [hiff, not_or, not_not]
      exact ⟨htag, hother⟩
    rw [cut, if_neg hother]
    by_cases hrne : (contentOf r).2 = []
    · rw [deleteSubTreeFuel, if_neg h0, if_neg hsame, if_pos ((asksWhole_iff_content hreq hr hrt).mpr hrne), if_pos hrne,
        if_pos (.inl (type_of_fieldKey (hleaf hrne)))]
      exact ⟨hn.shaped, rfl, rfl, ⟨1, rfl, iff_of_true (.inl rfl) rfl⟩, fun f hf => by cases hf⟩
    rw [if_neg hrne]
    by_cases hdne : (contentOf d).2 = []
    · obtain ⟨-, hcs⟩ := hn.opened hd hdt (!looksAtKeys r)
      have hnil := (nil_iff_nil hcs).mpr hdne
      have hprune : prune (fuel + 1) r d = [] := by
        rw [prune, hdne]
        rfl
      rw [deleteSubTreeFuel, if_neg h0, if_neg hsame, if_neg fun h => hrne ((asksWhole_iff_content hreq hr hrt).mp h)]
      simp only
      rw [hreq.childHasKey hr hrt hrne, if_pos ((childNum_nonpos_iff (innerExpand_expanded ..)).mpr hnil), if_pos hprune]
      refine ⟨hn.shaped.innerExpand .., face_innerExpand .., rfl, ⟨0, rfl, iff_of_true (.inr ?_) rfl⟩,
        fun f hf => by cases hf⟩
      rw [getChildNum_expanded (innerExpand_expanded ..), hnil]
      rfl
    obtain ⟨-, -, -, hsingle⟩ := hans hrne hdne
    obtain ⟨hret, hquiet, hshaped, hface, hexp, hnil, hfield⟩ := left_content known hreq hr hrt hn hd hdt htag hknown
      (fun hne => not_not.mp fun hkey => hother ⟨hne, hkey⟩) hrne hdne hans fun f hf g hg hsuit s c hs hc hfl => by
        obtain ⟨hfg, hft⟩ := hr.below.2 f hf
        obtain ⟨hgg, hgt⟩ := hd.below.2 g hg
        exact ih hs hfg (fun h1 => hft (h1.1 ▸ by decide)) hc hgg (fun h1 => hgt (h1.1 ▸ by decide))
          (fun hk => key_of_not_looksAtKeys hk hf) (by have := hr.length_str_child hf; omega) ((hsingle f hf).2 g hg hsuit)
          hsuit.1 hfl
    have hnum := getChildNum_expanded hexp pk
    refine ⟨hshaped, hface, hquiet, ⟨_, hret, ?_⟩, fun f hf => ?_⟩
    · rw [hnum, List.length_eq_zero_iff, hnil]
      by_cases hcs : prune (fuel + 1) r d = []
      · simp [hcs]
      · simp [hcs]
    · rw [hnum]
      by_cases hcs : prune (fuel + 1) r d = []
      · rw [if_pos hcs] at hf
        cases hf
      · rw [if_neg hcs] at hf
        rw [← Option.some.inj hf]
        exact hfield hcs

end KnvNode

open KnvNode

variable {r d : PbField} {noEmpty : Bool}

/-! ### Messages -/

/-- What is left of a message when a request is deleted from it, if anything: a request for other messages leaves it as it
is, and so does a request for children that it does not have. -/
def deleteRoot (r d : PbField) : Option PbField :=
  if d.tag ≠ r.tag ∨ ((fieldKey r).bytes ≠ [] ∧ fieldKey d ≠ fieldKey r) then some d
  else if (contentOf r).2 = [] then none
  else if (contentOf d).2 = [] then some d
  else if prune (r.val.str.length + 1) r d = [] then none
  else some (withContent d (contentOf d).1 (prune (r.val.str.length + 1) r d))

/-- A request that was received is deleted from a stored message: `New` of both, `DeleteSubTree`, and `Serialize`, unless
the message goes as a whole. -/
def deleteWire (req data : Bytes) : Except KnvErr (Option Bytes) :=
  (newFromBytes req).bind fun r => (newFromBytes data).bind fun n =>
    (deleteSubTree r false n).ret.bind fun ret =>
      if ret = 1 then .ok none else (deleteSubTree r false n).node.serializeStr.map some

/-- What `DeleteSubTree` of a message returns and leaves. -/
theorem deleteSubTree_root {req n : KnvNode} (hr : Genuine r) (hd : Genuine d) (hreq : FromField false r req)
    (hn : FromField false d n) (hans : Answerable false (r.val.str.length + 1) r d) :
    ∃ k, (deleteSubTree req false n).ret = .ok k ∧ (k = 1 ↔ deleteRoot r d = none) ∧
      ∀ f, deleteRoot r d = some f → (deleteSubTree req false n).node.toField = f := by
  have h0 : req.tag ≠ 0 := bne_iff_ne.mp (hreq.valid hr.ok)
  have hroot : ∀ f : PbField, ¬(f.tag = 1 ∧ false = true) := fun f h => Bool.false_ne_true h.2
  have hiff := other_iff true hreq hr hn hd fun h => by cases h
  have hwhole := asksWhole_iff_content hreq hr (hroot r)
  obtain ⟨fuel, hfuel⟩ := Nat.exists_eq_succ_of_ne_zero (Nat.pos_iff_ne_zero.mp req.weight_pos)
  rw [deleteSubTree, hfuel]
  unfold deleteRoot
  by_cases hother : d.tag ≠ r.tag ∨ ((fieldKey r).bytes ≠ [] ∧ fieldKey d ≠ fieldKey r)
  · rw [deleteSubTreeFuel, if_neg h0, if_pos (hiff.mpr hother), if_pos hother]
    refine ⟨0, rfl, iff_of_false (by decide) (Option.some_ne_none _), fun f hf => ?_⟩
    rw [← Option.some.inj hf]
    exact hn.toField hd.norm
  rw [if_neg hother]
  by_cases hrne : (contentOf r).2 = []
  · rw [deleteSubTreeFuel, if_neg h0, if_neg fun h => hother (hiff.mp h), if_pos (hwhole.mpr hrne), if_pos hrne]
    exact ⟨1, rfl, iff_of_true rfl rfl, fun f hf => by cases hf⟩
  rw [if_neg hrne]
  by_cases hdne : (contentOf d).2 = []
  · obtain ⟨-, hcs⟩ := hn.opened hd (hroot d) (!looksAtKeys r)
    rw [deleteSubTreeFuel, if_neg h0, if_neg fun h => hother (hiff.mp h), if_neg fun h => hrne (hwhole.mp h), if_pos hdne]
    simp only
    rw [hreq.childHasKey hr (hroot r) hrne,
      if_pos ((childNum_nonpos_iff (innerExpand_expanded ..)).mpr ((nil_iff_nil hcs).mpr hdne))]
    refine ⟨0, rfl, iff_of_false (by decide) (Option.some_ne_none _), fun f hf => ?_⟩
    rw [← Option.some.inj hf]
    exact hn.toField_innerExpand hd (hroot d) _
  rw [if_neg hdne]
  -- a request with content has fuel for all of its levels
  have hexp : req.expanded = false := hreq.folded hr hrne
  have hfuel' : fuel = r.val.str.length := by
    rw [weight_eq, if_neg (by simp [hexp]), hreq.val hr.norm] at hfuel
    exact (Nat.succ.inj hfuel).symm
  subst hfuel'
  rw [not_or, not_not] at hother
  obtain ⟨-, -, -, hsingle⟩ := hans hrne hdne
  have hleft := left_content true hreq hr (hroot r) hn hd (hroot d) hother.1 (fun h => by cases h)
    (fun hne => not_not.mp fun hkey => hother.2 ⟨hne, hkey⟩) hrne hdne hans fun f hf g hg hsuit s c hs hc hfl => by
      obtain ⟨hfg, hft⟩ := hr.below.2 f hf
      obtain ⟨hgg, hgt⟩ := hd.below.2 g hg
      exact prunes_deleteSubTreeFuel _ hs hfg (fun h1 => hft (h1.1 ▸ by decide)) hc hgg (fun h1 => hgt (h1.1 ▸ by decide))
        (fun hk => key_of_not_looksAtKeys hk hf) (hr.length_str_child hf) ((hsingle f hf).2 g hg hsuit) hsuit.1 hfl
  refine ⟨_, hleft.ret, ?_, fun f hf => ?_⟩
  · by_cases hcs : prune (r.val.str.length + 1) r d = []
    · simp [hcs]
    · simp [hcs]
  · by_cases hcs : prune (r.val.str.length + 1) r d = []
    · rw [if_pos hcs] at hf
      cases hf
    · rw [if_neg hcs] at hf
      rw [← Option.some.inj hf]
      exact hleft.field hcs

/-- A request that is deleted from a canonical message does not fail, and what it leaves is written as what is left. -/
theorem deleteWire_eq (hr : Genuine r) (hd : Genuine d) (hans : Answerable false (r.val.str.length + 1) r d) :
    deleteWire r.encode d.encode = .ok ((deleteRoot r d).map PbField.encode) := by
  obtain ⟨req, hreq, hrf, -⟩ := hr.tree
  obtain ⟨n, hn, hnf, hserve⟩ := hd.tree
  obtain ⟨k, hret, hone, hfield⟩ := deleteSubTree_root hr hd hrf hnf hans
  have hwalk : Walk (unfed fun s => ∃ i, s = .ofChild i) {} n (deleteSubTree req false n).node
      (deleteSubTree req false n).msgs :=
    deleteSubTreeFuel_walk (fun i => ⟨i, rfl⟩) _ false req {} n hserve.sound.shaped
  have hserve' := hwalk.serving trivial (fun _ hs => hs) (fun _ _ hx => absurd hx id) hserve
  have hwrite := (serializeStr_iff_of_measured hserve'.sound hserve'.measured _).mpr rfl
  rw [deleteWire, hreq, hn]
  simp only [Except.bind, hret, hwrite]
  cases hm : deleteRoot r d with
  | none => rw [if_pos (hone.mpr hm)]; rfl
  | some f =>
    rw [if_neg fun h => Option.some_ne_none f (hm.symm.trans (hone.mp h))]
    have hplain : (deleteSubTree req false n).node.plain = f.encode := by
      rw [← hfield f hm, toField, encode_norm]
      rfl
    rw [hplain]
    rfl

/-- **`DeleteSubTree` takes out what is asked for.** A request that is deleted from a canonical message does not fail; it
leaves the message without what it asks for, which is a part of the message, or nothing. -/
theorem deleteWire_encode (hr : Genuine r) (hd : Genuine d) (hans : Answerable false (r.val.str.length + 1) r d) :
    ∃ o : Option PbField, deleteRoot r d = o ∧ deleteWire r.encode d.encode = .ok (o.map PbField.encode) ∧
      ∀ f ∈ o, Within f d := by
  refine ⟨deleteRoot r d, rfl, deleteWire_eq hr hd hans, fun f hf => ?_⟩
  unfold deleteRoot at hf
  split at hf
  · exact Option.some.inj hf ▸ .whole
  split at hf
  · cases hf
  split at hf
  · exact Option.some.inj hf ▸ .whole
  split at hf
  · cases hf
  · next hne => exact within_withContent (within_prune _ r d) hne (Option.some.inj hf)

/-! ### Runs -/

/-- A child is deleted by its tag, and another that is not there. -/
theorem deleteWire_encode_keyed : ∃ o : Option PbField,
    deleteWire (keyed ([(5, 1)], [(13, 1), (15, 1)])).encode (keyed ([(5, 7)], [(12, 1), (13, 2)])).encode =
        .ok (o.map PbField.encode) ∧
      o = some (keyed ([(5, 7)], [(12, 1)])) ∧
      Within (keyed ([(5, 7)], [(12, 1)])) (keyed ([(5, 7)], [(12, 1), (13, 2)])) := by
  obtain ⟨o, ho, hwire, hwithin⟩ := deleteWire_encode genuine_asked.2 genuine_asked.1 (by decide +kernel)
  have hleft : deleteRoot (keyed ([(5, 1)], [(13, 1), (15, 1)])) (keyed ([(5, 7)], [(12, 1), (13, 2)])) =
      some (keyed ([(5, 7)], [(12, 1)])) := by decide +kernel
  obtain rfl := ho.symm.trans hleft
  exact ⟨_, hwire, rfl, hwithin _ rfl⟩

end KnvProto
