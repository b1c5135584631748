import KnvProto.Tree.Cache
import KnvProto.Tree.Identity
import KnvProto.Tree.Walks

/-!
# Updates and deletions hide nothing

A tree is updated by other trees, deleted from by requests, and changed by the public
functions in between, in any order and at any node: no cached value ever hides an update
(`cache_of_storeRun`). It does not matter what the updates and deletions return, since a
walk that has failed half way has kept every step that it made.

## The model

What an update takes over has to be fit to be copied (`Sendable`), as what `InsertChild`
copies has to be (`Copied`); a request may be any tree.
-/

namespace KnvProto

open PathEdit

namespace KnvNode

variable {pl q : Place} {n n' x u : KnvNode} {msgs : List Ev}

/-! ### What may be taken over -/

/-- A value that may be copied: it is the one that will be written, or there is none. -/
def Carried (x : KnvNode) : Prop := x.isFolded = true ∨ x.isClean = true ∨ x.val.str = []

/-- A tree that an update may take over from. -/
structure Sendable (pl : Place) (x : KnvNode) : Prop where
  sound : Sound pl x
  fits : All Fits x
  carried : All Carried x

/-- The node of a field, whose value has not been looked into. -/
theorem fits_of_parsed {k : Bool} {a : ℕ} {fs : List (PbField × ℕ)} {c : KnvNode} (hc : c ∈ parsed k a fs)
    (hlen : ∀ p ∈ fs, p.1.val.str.length < 2 ^ 31) : All Fits c ∧ All Carried c := by
  obtain ⟨p, hp, b, rfl⟩ := mem_parsed hc
  have hfold : ((ofField p (p.1.tag ≤ ucMaxMetaNum || k)).at' b).isFolded = true := isFolded_of_nil rfl rfl
  refine ⟨.of_nil ⟨?_, fun m hm => absurd hm List.not_mem_nil⟩ rfl rfl, .of_nil (.inl hfold) rfl rfl⟩
  rw [plainVal_of_folded hfold]
  have hle : ((ofField p (p.1.tag ≤ ucMaxMetaNum || k)).at' b).val.str.length ≤ p.1.val.str.length := by
    show (p.1.val.pick p.1.type).str.length ≤ _
    unfold PbVal.pick
    split
    · exact le_rfl
    · exact Nat.zero_le _
  exact Nat.lt_of_le_of_lt hle (hlen p hp)

theorem Sound.opened (h : Sound pl x) (k : Bool) : Sound pl (x.innerExpand pl.parentKeyed k) := by
  obtain ⟨hc, -⟩ := cached_innerExpand h.cached h.shaped h.seated.key k
  have hsame := expandSame pl.parentKeyed k x
  refine ⟨hc, h.shaped.innerExpand _ _, ?_, fun h1 hk => hsame.noKey ▸ h.seated.key (hsame.tag ▸ h1) hk⟩
  rw [isValid, hsame.tag]
  exact h.seated.valid

theorem encodeAll_ne_nil {fs : List PbField} (h : fs ≠ []) : encodeAll fs ≠ [] := by
  obtain ⟨f, fs, rfl⟩ := List.exists_cons_of_ne_nil h
  rw [encodeAll_cons]
  exact List.append_ne_nil_of_left_ne_nil (List.ne_nil_of_length_pos (length_encode_pos' f)) _

/-- The nodes that are made when a node is expanded may be copied. -/
theorem fits_innerExpand (hc : All Cached x) (hf : All Fits x) (hexp : x.expanded = false) (pk k : Bool) :
    All Fits (x.innerExpand pk k) ∧ All Carried (x.innerExpand pk k) := by
  have hn := hc.here
  have hfold := isFolded_of_not_expanded hexp
  have hlen : x.val.str.length < 2 ^ 31 := plainVal_of_folded hfold ▸ hf.here.val
  have hval := (expandSame pk k x).val
  have hun : Unfolded pk k x (x.innerExpand pk k) := unfolded hexp fun ht => hn.canon ht hfold
  have hfits : (x.innerExpand pk k).plainVal.length < 2 ^ 31 := by
    rw [expand_plainVal hn]
    exact hf.here.val
  generalize x.innerExpand pk k = x' at hval hun hfits ⊢
  cases hun with
  | leaf _ hms hcs _ =>
    refine ⟨All.of_nil ⟨hfits, fun m hm => ?_⟩ hms hcs, All.of_nil (.inl (isFolded_of_nil hms hcs)) hms hcs⟩
    rw [hms] at hm
    exact absurd hm List.not_mem_nil
  | message ms cs ht hstr hne hok hstr' hshort hms hcs hmetas hchildren hdirty =>
    have hfield : ∀ f ∈ ms ++ cs, (sized f).1.val.str.length < 2 ^ 31 := by
      intro f hf
      have hscan : sized f ∈ (pbScan x.val.str).1 := by
        rw [hstr, pbScan_encodeAll fun f hf => (hok f hf).1]
        exact List.mem_map.mpr ⟨f, hf, by rw [(hok f hf).2]; rfl⟩
      exact (length_of_mem_pbScan hscan).trans hlen
    have hsized : ∀ l : List PbField, (∀ f ∈ l, f ∈ ms ++ cs) → ∀ p ∈ l.map sized, p.1.val.str.length < 2 ^ 31 := by
      intro l hl p hp
      obtain ⟨f, hf, rfl⟩ := List.mem_map.mp hp
      exact hfield f (hl f hf)
    have hm : ∀ m ∈ x'.metalist, All Fits m ∧ All Carried m := fun m hm =>
      fits_of_parsed (hmetas ▸ hm) (hsized ms fun f hf => List.mem_append_left _ hf)
    have hc : ∀ c ∈ x'.childlist, All Fits c ∧ All Carried c := fun c hc =>
      fits_of_parsed (hchildren ▸ hc) (hsized cs fun f hf => List.mem_append_right _ hf)
    refine ⟨.mk ⟨hfits, fun m hmem h1 _ => ?_⟩ (fun m h => (hm m h).1) fun c h => (hc c h).1,
      .mk (.inr (.inl ?_)) (fun m h => (hm m h).2) fun c h => (hc c h).2⟩
    · -- the key of a canonical message is short
      rw [hmetas] at hmem
      obtain ⟨p, hp, b, rfl⟩ := mem_parsed hmem
      obtain ⟨f, hf, rfl⟩ := List.mem_map.mp hp
      rw [plainVal_of_folded (isFolded_of_nil rfl rfl)]
      have hpick : ((ofField (sized f) (f.tag ≤ ucMaxMetaNum || k)).at' b).val = f.val :=
        pick_of_norm (hok f (List.mem_append_left _ hf)).2
      show ((ofField (sized f) (f.tag ≤ ucMaxMetaNum || k)).at' b).val.str.length < 2 ^ 16
      rw [hpick]
      exact hshort f (List.mem_append_left _ hf) h1
    · -- a message that has been scanned is clean
      have hne' : x'.val.str ≠ [] := by
        rw [hval, hstr]
        exact encodeAll_ne_nil hne
      simp [isClean, isBufferValid, hne', hdirty]

theorem Sendable.opened (h : Sendable pl x) (k : Bool) : Sendable pl (x.innerExpand pl.parentKeyed k) := by
  cases hexp : x.expanded with
  | true =>
    rw [innerExpand_of_expanded hexp]
    exact h
  | false =>
    obtain ⟨hfits, hcarried⟩ := fits_innerExpand h.sound.cached h.fits hexp pl.parentKeyed k
    exact ⟨h.sound.opened k, hfits, hcarried⟩

theorem Sendable.child {s : KnvNode} (h : Sendable pl x) (hs : s ∈ x.childlist) :
    Sendable ⟨x.key.bytes != [], false⟩ s := by
  have hplaced : Placed ⟨x.key.bytes != [], false⟩ s :=
    ⟨fun hm => (by cases hm), fun _ => h.sound.cached.here.children s hs⟩
  exact ⟨⟨h.sound.cached.children s hs, h.sound.shaped.children s hs, hplaced.seated⟩, h.fits.children s hs,
    h.carried.children s hs⟩

/-- **All parts of a tree that may be taken over may be taken over.** -/
theorem Sendable.part (h : Sendable q u) (hpart : Part u q pl x) : Sendable pl x := by
  induction hpart with
  | root => exact h
  | opened k _ ih => exact ih.opened k
  | child _ hs ih => exact ih.child hs

/-- A value that may be copied is canonical. -/
theorem Carried.canon (hv : Carried x) (hc : All Cached x) (hf : All Fits x) (ht : x.type = .string) :
    Canon MetasFirst x.val.str := by
  rcases hv with hfold | hcl | hnil
  · exact hc.here.canon ht hfold
  · cases hfold : x.isFolded with
    | true => exact hc.here.canon ht hfold
    | false =>
      rw [hc.here.clean hfold hcl]
      exact canon_plainVal hc hf ht
  · rw [hnil]
    exact canon_nil _

theorem getValueOp_of_getValue {v : PbVal} (hv : x.getValue.2 = .ok v) :
    x.getValueOp.ret = .ok 0 ∧ x.getValueOp.node.val = v := by
  rw [getValueOp, hv]
  unfold KnvNode.getValue at hv ⊢
  generalize x.fold = r at hv ⊢
  obtain ⟨n', r | r⟩ := r
  · cases hv
  · cases hv
    exact ⟨rfl, rfl⟩

theorem Sendable.getValue {v : PbVal} (h : Sendable pl x) (ht : x.type = .string) (hv : x.getValue.2 = .ok v) :
    Canon MetasFirst v.str := by
  obtain ⟨hret, rfl⟩ := getValueOp_of_getValue hv
  have heval : x.evaluateSize = x := evaluateSize_of_nonneg h.sound.shaped.here.evaluated
  revert hret
  refine getValueOp_rule (P := fun o => o.ret = .ok 0 → Canon MetasFirst o.node.val.str) (fun e he => by cases he)
    (fun e he => by cases he) (fun _ _ _ => h.carried.here.canon h.sound.cached h.fits ht) fun _ _ n' out hn' hout _ _ => ?_
  rw [hn', heval] at hout
  rw [(plain_serialize (h.sound.cached.imp fun _ h => h.honest) h.sound.shaped _ out).2 hout]
  exact canon_plainVal h.sound.cached h.fits ht

/-! ### Walks -/

theorem fine_innerInsertChild {s : KnvNode} (hn : Sound pl n) (hexp : n.expanded = true) (hs : Sendable q s)
    (htag : ChildTag s.tag) : Fine pl n (innerInsertChild s false true true n) := by
  have ho : Entered n n := ⟨hn.cached, hn.shaped, ⟨rfl, rfl, rfl, rfl, rfl, rfl, rfl, rfl⟩, hexp, rfl, id⟩
  refine innerInsertChild_rule (P := Fine pl n) (fun _ => ho.fine hn _) fun c hlink c' hc' => ?_
  obtain ⟨hcc, hcs, hct⟩ := cached_toLink hs.sound.cached hs.sound.shaped (fun _ => ⟨hs.fits, hs.carried.here⟩) hlink
  rw [evaluateSize_of_nonneg hcs.here.evaluated, ite_self] at hc'
  subst hc'
  refine fine_finish hn (held_linkChild hn.cached.here.toHeld (hct ▸ htag) true) hn.cached.metas (fun x hx => ?_) hexp rfl
    rfl _
  have hx' : x ∈ n.childlist ∨ x = c'.at' n.slots := by simpa [linkChild, or_comm] using hx
  rcases hx' with hx | rfl
  · exact hn.cached.children x hx
  · exact hcc.cached_at'

theorem fine_removeChildByPos (hn : Sound pl n) (hexp : n.expanded = true) (a : ℕ) (pos : Option ℕ) :
    Fine pl n (n.removeChildByPos a pos) := by
  have ho : Entered n n := ⟨hn.cached, hn.shaped, ⟨rfl, rfl, rfl, rfl, rfl, rfl, rfl, rfl⟩, hexp, rfl, id⟩
  refine removeChildByPos_rule (ho.fine hn _) fun c _ o hout => ?_
  rw [hout]
  exact (fine_fewer hn ho _ (fun _ hx => List.mem_of_mem_eraseP hx) _).ret _

/-- A meta that is taken over, which is not the key. -/
theorem fine_setMeta_of {m : KnvNode} (hn : Sound pl n) (hsend : Sendable q x) (hm : m ∈ x.metalist) (htag : 1 < m.tag) :
    Fine pl n (n.setMetaInner m.tag m.type (some m.val) true pl) := by
  have hgiven : Given MetasFirst m.type (some m.val) := by
    intro ht v hv
    cases hv
    exact (hsend.carried.metas m hm).here.canon (hsend.sound.cached.metas m hm) (hsend.fits.metas m hm) ht
  have hne : m.tag ≠ 1 := fun h => absurd (h ▸ htag) (by decide)
  have hfine := fine_setMetaInner hn (.same rfl (.inl hne)) (fun h => absurd (h ▸ htag) (by decide)) hgiven
  obtain ⟨d, ms, cs⟩ := n
  exact hfine

variable {T : Terms}

/-- **A step of a walk hides nothing, and tells the parent.** -/
theorem WalkStep.fine (hsrc : ∀ q x, T.src q x → Sendable q x) (hn : Sound pl n) (h : WalkStep T pl n n' msgs) :
    Fine pl n ⟨n', msgs, .ok 0⟩ := by
  cases h with
  | expand k =>
    have hopen := hn.opened k
    obtain ⟨-, hd⟩ := cached_innerExpand hn.cached hn.shaped hn.seated.key k
    have ho : Entered n (n.innerExpand pl.parentKeyed k) :=
      ⟨hopen.cached, hopen.shaped, expandSame .., innerExpand_expanded .., expand_plainVal hn.cached.here .., hd⟩
    exact ho.fine hn _
  | setMeta hx hm htag _ => exact (fine_setMeta_of hn (hsrc _ _ hx) hm htag).ret _
  | setValue hx hv =>
    unfold KnvNode.setValue
    split
    · next ht => exact (fine_setValueStr hn ((hsrc _ _ hx).getValue ht hv)).ret _
    · exact (fine_setValueInt hn _).ret _
  | insert hx hs hexp _ =>
    have hsend := (hsrc _ _ hx).child hs
    exact (fine_innerInsertChild hn hexp hsend ((hsrc _ _ hx).sound.cached.here.children _ hs)).ret _
  | removeByTag t => exact (fine_removeChildrenByTag hn t).ret _
  | remove a pos hexp => exact (fine_removeChildByPos hn hexp a pos).ret _

theorem Fine.sound {o : Out} (h : Fine pl n o) (hn : Sound pl n) (hs : Shaped o.node) (hrole : SameRole n o.node) :
    Sound pl o.node :=
  ⟨h.cached, hs, h.valid, fun h1 hk => hrole.noKey ▸ hn.seated.key (hrole.tag ▸ h1) hk⟩

/-- A parent that hears of a sound node is sound, and tells what it has become. -/
theorem Sound.hear {p c c' : KnvNode} {s : Slot} (hp : Sound pl p) (hc : p.slot s = some c) (hc' : Sound (p.place s) c')
    (hrole : SameRole c c') (hmarked : Marked c c' msgs) (hplaced : Placed (p.place s) c → Placed (p.place s) c') :
    Sound pl ((p.setSlot s c').handleAll c'.self msgs).1 ∧
      Marked p ((p.setSlot s c').handleAll c'.self msgs).1 ((p.setSlot s c').handleAll c'.self msgs).2 := by
  have ht := touched_handleAll c'.self msgs (p.setSlot s c')
  obtain ⟨hcached, hm⟩ := Cached.hear hp.cached hp.shaped.here hc hrole.self hc'.cached
    (hplaced (hp.cached.here.toHeld.placed hc)) hmarked
  have htag : ((p.setSlot s c').handleAll c'.self msgs).1.tag = p.tag := ht.tag.trans (by cases s <;> rfl)
  have hno : ((p.setSlot s c').handleAll c'.self msgs).1.noKey = p.noKey := ht.noKey.trans (by cases s <;> rfl)
  refine ⟨⟨hcached, (hp.shaped.setSlot hc hc'.shaped hrole.self).touched ht, ?_, fun h1 hk => ?_⟩, hm⟩
  · rw [isValid, htag]
    exact hp.seated.valid
  · exact hno ▸ hp.seated.key (htag ▸ h1) hk

/-- **A walk hides nothing**, whatever it is told to do and whatever it returns. -/
theorem Walk.sound (hsrc : ∀ q x, T.src q x → Sendable q x) (h : Walk T pl n n' msgs) (hn : Sound pl n) : Sound pl n' := by
  refine Edits.rule Sound (fun pl n n' msgs => SameRole n n' ∧ Marked n n' msgs ∧ (Placed pl n → Placed pl n'))
    (fun pl p s c hp _ hc => ⟨All.slot hp.cached hc, All.slot hp.shaped hc, (hp.cached.here.toHeld.placed hc).seated⟩)
    (fun pl p s c c' msgs hp _ hc hc' hlink => ?_) (fun pl n n' msgs hn hstep => ?_) h hn
  · obtain ⟨hrole, hmarked, hplaced⟩ := hlink
    rw [notify_setSlot hc]
    obtain ⟨hsound, hm⟩ := hp.hear hc hc' hrole hmarked hplaced
    have hup : SameRole p ((p.setSlot s c').handleAll c'.self msgs).1 :=
      .trans (by cases s <;> exact ⟨rfl, rfl, rfl, rfl⟩) (touched_handleAll ..).role
    exact ⟨hsound, hup, hm, .of_same hup.tag hup.noKey⟩
  · have hfine := hstep.fine hsrc hn
    exact ⟨hfine.sound hn (hstep.shaped (fun q x hx => (hsrc q x hx).sound.shaped) hn.shaped) hstep.role, hstep.role,
      hfine.marked, hfine.placed⟩

end KnvNode

/-! ### Runs -/

open KnvNode

/-- What `DeleteSubTree` leaves of the node, for its parent. -/
def Deletion.out (d : Deletion) : Out := ⟨d.node, d.msgs, d.ret⟩

/-- The trees of runs of tame steps, of updates by trees of such runs, and of deletions by any request, at any node. -/
inductive StoreRun : KnvNode → Prop
  /-- A tree of a run of tame steps from a canonical value. -/
  | canon {root : KnvNode} : CanonRun MetasFirst Op.Tame root → StoreRun root
  /-- A tame function on a node of the tree. -/
  | step {root : KnvNode} {op : Op} {path : List Slot} {out : Out} : StoreRun root →
      (∀ child own atTail, op = .insertChild child own atTail → StoreRun child) →
      (∀ pl n, ctxAt hanging path {} root = some pl → nodeAt hanging path root = some n → op.Tame path pl n) →
      op.runAt path root = some out → StoreRun out.node
  /-- `UpdateSubTree` of a node of the tree. -/
  | update {root u : KnvNode} {order : List UInt32 → List UInt32} {maxLevel : ℤ} {path : List Slot} {out : Out} :
      StoreRun root → StoreRun u → All Fits u → All Carried u →
      editAt hanging (updateSubTree order false u maxLevel) path {} root = some out → StoreRun out.node
  /-- `DeleteSubTree` of a node of the tree. -/
  | delete {root req : KnvNode} {path : List Slot} {out : Out} : StoreRun root →
      editAt hanging (fun pl n => (deleteSubTree req pl.parentKeyed n).out) path {} root = some out → StoreRun out.node

namespace KnvNode

theorem sound_of_storeRun {root : KnvNode} (h : StoreRun root) : Sound {} root := by
  induction h with
  | canon h => exact sound_of_run h
  | @step _ op _ _ _ _ hok hrun ih ihc =>
    refine cached_runAt ih ?_ hok hrun
    cases op with
    | insertChild child own atTail =>
      have hc := ihc child own atTail rfl
      exact ⟨hc.cached, hc.shaped⟩
    | _ => trivial
  | @update root u order maxLevel path out _ _ hfits hcarried hout ih ihu =>
    have hu : Sendable {} u := ⟨ihu, hfits, hcarried⟩
    have hwalk : Walk (byTree (fun _ => True) False u {}) {} root out.node out.msgs :=
      Walk.of_editAt (fun _ _ => trivial) hout fun pl n _ _ =>
        updateSubTreeLevels_walk order (fun _ => trivial) _ pl n .root False.elim
    exact hwalk.sound (fun _ _ hpart => hu.part hpart) ih
  | @delete root req path out _ hout ih =>
    have hwalk : Walk (unfed fun _ => True) {} root out.node out.msgs :=
      Walk.of_editAt (fun _ _ => trivial) hout fun pl n _ hn =>
        deleteSubTreeFuel_walk (fun _ => trivial) _ false req pl n (all_nodeAt ih.shaped hn)
    exact hwalk.sound (fun _ _ hx => absurd hx id) ih

end KnvNode

end KnvProto
