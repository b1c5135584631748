import KnvProto.Node.Request
import KnvProto.Tree.Measured
import KnvProto.Tree.Walked

/-!
# Queries are not seen

`GetSubTree`, `MakeRequestTree` and the lookups change the tree that they read: they
expand what they look into, and `GetValue` makes a value of what is below a node again.
None of it is seen from outside (`unseen_of_queryRun`): the size stays, and `Serialize`
succeeds in the same buffers and writes the same bytes, at any time later on.

## The model

A query is a sequence of expansions and folds somewhere in the tree (`ReadStep`), none of
which tells a parent anything.
-/

namespace KnvProto

open PathEdit

namespace KnvNode

/-! ### What a query may read -/

/-- What a query does to the node it is at. -/
inductive ReadStep : Place → KnvNode → KnvNode → List Ev → Prop
  /-- An expansion, with keys or without. -/
  | expand {pl : Place} {n : KnvNode} (k : Bool) : ReadStep pl n (n.innerExpand pl.parentKeyed k) []
  /-- `GetValue`. -/
  | fold {pl : Place} {n : KnvNode} : ReadStep pl n n.getValueOp.node []

/-- What a query leaves of a node, at its place. -/
abbrev Read : Place → KnvNode → KnvNode → List Ev → Prop := Edits hanging (fun _ => True) ReadStep

/-- A tree that may be read: its cached sizes are exact. -/
structure Legible (pl : Place) (n : KnvNode) : Prop where
  sound : Sound pl n
  fits : All Fits n
  measured : All Measured n

/-- What reading leaves alone. -/
structure Untouched (n n' : KnvNode) : Prop where
  role : SameRole n n'
  key : n'.key = n.key
  evalSz : n'.evalSz = n.evalSz
  evalValSz : n'.evalValSz = n.evalValSz
  plain : n'.plain = n.plain
  plainVal : n'.plainVal = n.plainVal
  /-- Nothing is marked. -/
  dirty : n'.subnodeDirty = true → n.subnodeDirty = true

variable {pl : Place} {n n' n'' c c' p : KnvNode} {s : Slot} {msgs : List Ev}

theorem Untouched.refl (n : KnvNode) : Untouched n n := ⟨.refl n, rfl, rfl, rfl, rfl, rfl, id⟩

theorem Untouched.trans (h : Untouched n n') (h' : Untouched n' n'') : Untouched n n'' :=
  ⟨h.role.trans h'.role, h'.key.trans h.key, h'.evalSz.trans h.evalSz, h'.evalValSz.trans h.evalValSz,
    h'.plain.trans h.plain, h'.plainVal.trans h.plainVal, fun hd => h.dirty (h'.dirty hd)⟩

theorem Untouched.marked (h : Untouched n n') : Marked n n' [] := .same not_update_nil h.plain h.role.tag h.dirty

theorem Untouched.measured (h : Untouched n n') (hn : Measured n) : Measured n' :=
  ⟨by rw [h.evalSz, h.plain, hn.size], fun ht => by rw [h.evalValSz, h.plainVal, hn.value (h.role.type ▸ ht)]⟩

/-! ### One step -/

theorem legible_expand (h : Legible pl n) (k : Bool) :
    Legible pl (n.innerExpand pl.parentKeyed k) ∧ Untouched n (n.innerExpand pl.parentKeyed k) := by
  have hopen := h.sound.opened k
  obtain ⟨-, hd⟩ := cached_innerExpand h.sound.cached h.sound.shaped h.sound.seated.key k
  have hsame := expandSame pl.parentKeyed k n
  have hplainVal := expand_plainVal h.sound.cached.here pl.parentKeyed k
  have hplain : (n.innerExpand pl.parentKeyed k).plain = n.plain := by
    rw [plain, plain, hplainVal, fieldOf, fieldOf, hsame.tag, hsame.type, hsame.val]
  have hkeep : Untouched n (n.innerExpand pl.parentKeyed k) :=
    ⟨hsame.role, hsame.key, hsame.evalSz, hsame.evalValSz, hplain, hplainVal, hd⟩
  refine ⟨⟨hopen, ?_, ?_⟩, hkeep⟩
  · cases hexp : n.expanded with
    | true => exact (innerExpand_of_expanded hexp).symm ▸ h.fits
    | false => exact (fits_innerExpand h.sound.cached h.fits hexp _ _).1
  · exact measured_innerExpand h.sound h.measured k

theorem legible_fold (h : Legible pl n) : Legible pl n.getValueOp.node ∧ Untouched n n.getValueOp.node := by
  have hfine := fine_getValueOp h.sound h.fits
  have hshaped := (keepsShape_getValueOp h.sound.shaped).1
  have heval : n.evaluateSize = n := evaluateSize_of_nonneg h.sound.shaped.here.evaluated
  suffices hmain : Untouched n n.getValueOp.node ∧ All Fits n.getValueOp.node ∧ All Measured n.getValueOp.node by
    obtain ⟨hkeep, hfits, hmeasured⟩ := hmain
    exact ⟨⟨hfine.sound h.sound hshaped hkeep.role, hfits, hmeasured⟩, hkeep⟩
  clear hfine hshaped
  have hsame : ∀ n', n' = n → Untouched n n' ∧ All Fits n' ∧ All Measured n' := by
    rintro n' rfl
    exact ⟨.refl n', h.fits, h.measured⟩
  refine getValueOp_rule (P := fun o => Untouched n o.node ∧ All Fits o.node ∧ All Measured o.node)
    (fun _ => hsame n rfl) (fun _ => hsame _ heval) (fun _ _ => hsame n rfl) fun _ hd n' out hn' hout hlen => ?_
  rw [heval] at hn'
  subst hn'
  have ht := type_of_not_folded (Bool.or_eq_false_iff.mp hd).1
  have hbytes : out = n'.plainVal :=
    (plain_serialize (h.sound.cached.imp fun _ h => h.honest) h.sound.shaped _ out).2 hout
  obtain ⟨m, hm⟩ : ∃ m : KnvNode, m = { n' with
      val := { str := out }, subnodeDirty := false, expanded := false, metalist := [], childlist := [] } := ⟨_, rfl⟩
  have hval : m.plainVal = n'.plainVal := by
    rw [← hbytes, hm]
    exact plainVal_of_folded (isFolded_of_not_expanded rfl)
  have hplain : m.plain = n'.plain := by
    rw [plain, plain, hval, hm, fieldOf, fieldOf, if_pos ht, if_pos ht]
  have hkeep : Untouched n' m := by
    refine ⟨?_, ?_, ?_, ?_, hplain, hval, fun hd => ?_⟩
    all_goals rw [hm] at *
    · exact ⟨rfl, rfl, rfl, rfl⟩
    · cases hd
  have hnil : m.metalist = [] ∧ m.childlist = [] := by
    rw [hm]
    exact ⟨rfl, rfl⟩
  rw [← hm]
  refine ⟨hkeep, .of_nil ⟨by rw [hval]; exact h.fits.here.val, fun x hx => ?_⟩ hnil.1 hnil.2,
    .of_nil (hkeep.measured h.measured.here) hnil.1 hnil.2⟩
  rw [hnil.1] at hx
  exact absurd hx List.not_mem_nil

/-! ### Reading below a node -/

/-- **A node is as it was when one below it has been read.** -/
theorem Legible.setSlot (hp : Legible pl p) (hc : p.slot s = some c) (hc' : Legible (p.place s) c')
    (h : Untouched c c') : Legible pl (p.setSlot s c') ∧ Untouched p (p.setSlot s c') := by
  have hplaced : Placed (p.place s) c → Placed (p.place s) c' := .of_same h.role.tag h.role.noKey
  have hsound : Sound pl (p.setSlot s c') := (hp.sound.hear hc hc'.sound h.role h.marked hplaced).1
  have hplainVal := plainVal_setSlot hc h.plain h.role.tag
  have hplain : (p.setSlot s c').plain = p.plain := by
    rw [plain, plain, hplainVal]
    cases s <;> rfl
  have hfits : Fits (p.setSlot s c') := by
    refine ⟨hplainVal ▸ hp.fits.here.val, fun m hm h1 ht => ?_⟩
    rcases mem_setSlot.1 hm with hm | ⟨rfl, i, rfl⟩
    · exact hp.fits.here.key m hm h1 ht
    · rw [h.plainVal]
      exact hp.fits.here.key c (List.mem_of_getElem? hc) (h.role.tag ▸ h1) (h.role.type ▸ ht)
  have hkeep : Untouched p (p.setSlot s c') := by
    refine ⟨?_, ?_, ?_, ?_, hplain, hplainVal, ?_⟩
    · cases s <;> exact ⟨rfl, rfl, rfl, rfl⟩
    · cases s <;> rfl
    · cases s <;> rfl
    · cases s <;> rfl
    · cases s <;> exact id
  exact ⟨⟨hsound, hp.fits.setSlot hfits hc'.fits, hp.measured.setSlot (hkeep.measured hp.measured.here) hc'.measured⟩,
    hkeep⟩

theorem ReadStep.legible (h : ReadStep pl n n' msgs) (hn : Legible pl n) :
    Legible pl n' ∧ msgs = [] ∧ Untouched n n' := by
  cases h with
  | expand k =>
    obtain ⟨hlegible, hsame⟩ := legible_expand hn k
    exact ⟨hlegible, rfl, hsame⟩
  | fold =>
    obtain ⟨hlegible, hsame⟩ := legible_fold hn
    exact ⟨hlegible, rfl, hsame⟩

/-- **Reading leaves a tree as it was**, and tells nobody. -/
theorem Read.legible (h : Read pl n n' msgs) (hn : Legible pl n) : Legible pl n' ∧ msgs = [] ∧ Untouched n n' := by
  refine Edits.link Legible (fun _ n n' msgs => msgs = [] ∧ Untouched n n') (fun _ n => ⟨rfl, .refl n⟩)
    (fun _ _ _ _ _ _ h h' => ⟨by rw [h.1, h'.1]; rfl, h.2.trans h'.2⟩)
    (fun pl p s c hp _ hc => ⟨⟨All.slot hp.sound.cached hc, All.slot hp.sound.shaped hc,
      (hp.sound.cached.here.toHeld.placed hc).seated⟩, All.slot hp.fits hc, All.slot hp.measured hc⟩)
    (fun pl p s c c' msgs hp _ hc hc' hlink => ?_) (fun _ _ _ _ hn hstep => hstep.legible hn) h hn
  obtain ⟨rfl, hsame⟩ := hlink
  rw [notify_setSlot hc]
  obtain ⟨hlegible, hup⟩ := hp.setSlot hc hc' hsame
  exact ⟨hlegible, rfl, hup⟩

/-! ### Queries read -/

theorem self_evaluateSize (n : KnvNode) : n.evaluateSize.self = n.self := by
  obtain ⟨d, ms, cs⟩ := n
  rw [evaluateSize]
  split
  · rfl
  split <;> rfl

theorem ReadStep.self (h : ReadStep pl n n' msgs) : n'.self = n.self := by
  cases h with
  | expand k => exact (expandSame ..).self
  | fold =>
    refine getValueOp_rule (P := fun o => o.node.self = n.self) (fun _ => rfl) (fun _ => ?_) (fun _ _ => rfl)
      fun _ _ n' _ hn' _ _ => ?_
    · exact self_evaluateSize n
    · rw [hn']
      exact self_evaluateSize n

theorem Read.shaped (h : Read pl n n' msgs) (hn : Shaped n) : Shaped n' := by
  refine Edits.rule (fun _ n => Shaped n) (fun _ n n' _ => n'.self = n.self) (fun _ _ _ _ hn _ hc => All.slot hn hc)
    (fun _ p s c c' msgs hp _ hc hc' hself => ?_) (fun _ _ _ _ hn hstep => ⟨?_, hstep.self⟩) h hn
  · rw [notify_setSlot hc]
    have ht := touched_handleAll c'.self msgs (p.setSlot s c')
    exact ⟨(hp.setSlot hc hc' hself).touched ht, ht.self.trans (self_setSlot ..)⟩
  · cases hstep with
    | expand k => exact hn.innerExpand ..
    | fold => exact (keepsShape_getValueOp hn).1

/-- Reading in a node is reading its parent. -/
theorem Read.inside (h : Read (n.place s) c c' []) (hc : n.slot s = some c) : Read pl n (n.setSlot s c') [] := by
  have hin := Edits.inside (H := hanging) (n := n) (s := s) (g := pl) lawful_hanging (fun _ _ _ _ h => h.self) h trivial hc
  rw [notify_setSlot hc] at hin
  exact hin

theorem Read.child (hs : Shape n) {a : ℕ} (hc : (n.childlist.find? fun c => c.self = a) = some c)
    (h : Read ⟨n.key.bytes != [], false⟩ c c' []) : Read pl n (n.setChildNode c') [] :=
  edits_child (fun _ _ _ _ h => h.self) (fun _ => trivial) hs hc h

/-- In a node whose nodes have different addresses, a meta is replaced in its slot. -/
theorem setMetaNode_eq_setSlot (hs : Shape n) {i : ℕ} (hc : n.metalist[i]? = some c) (hself : c'.self = c.self) :
    n.setMetaNode c' = n.setSlot (.ofMeta i) c' := by
  rw [setMetaNode, replace_eq_set (nodup_metas hs) hc hself]
  rfl

theorem setMetaNode_of_ne (h : ∀ x ∈ n.metalist, x.self ≠ c.self) : n.setMetaNode c = n := by
  obtain ⟨d, ms, cs⟩ := n
  have hmap : (ms.map fun x => if x.self = c.self then c else x) = ms := by
    rw [List.map_congr_left fun x hx => if_neg (h x hx), List.map_id']
  exact congrArg (fun l => KnvNode.mk d l cs) hmap

theorem Read.metaNode (hs : Shape n) {a : ℕ} (hc : (n.metalist.find? fun c => c.self = a) = some c)
    (h : Read ⟨n.key.bytes != [], true⟩ c c' []) : Read pl n (n.setMetaNode c') [] := by
  obtain ⟨i, hi⟩ := List.mem_iff_getElem?.mp (List.mem_of_find?_eq_some hc)
  have hself := h.same lawful_hanging fun _ _ _ _ hstep => hstep.self
  rw [setMetaNode_eq_setSlot hs hi hself]
  exact Read.inside (s := .ofMeta i) h hi

/-- How far a query of `n` has come. -/
structure Reading (pl : Place) (n : KnvNode) (acc : Answer) : Prop where
  read : Read pl n acc.node []
  shaped : Shaped acc.node
  key : acc.node.key = n.key

variable {acc : Answer} {pool : ℕ → KnvNode} {noEmpty : Bool} {req : KnvNode}

theorem Reading.next (h : Reading pl n acc) (hread : Read pl acc.node n' []) (hkey : n'.key = acc.node.key)
    (out empty : Option KnvNode) (ret : Except KnvErr Unit) : Reading pl n ⟨n', out, empty, ret⟩ :=
  ⟨h.read.trans hread, hread.shaped h.shaped, hkey.trans h.key⟩

theorem Reading.same (h : Reading pl n acc) (out empty : Option KnvNode) (ret : Except KnvErr Unit) :
    Reading pl n ⟨acc.node, out, empty, ret⟩ := h.next .done rfl out empty ret

/-- A meta is folded in its place; what lies at the address of a meta that is not in the node any more is not in it. -/
theorem Reading.getMetas (hpool : ∀ a, (pool a).self = a) : ∀ {ms : List KnvNode} {acc : Answer}, Reading pl n acc →
    Reading pl n (getMetas pool ms acc) := by
  intro ms
  induction ms with
  | nil => exact fun h => h
  | cons m ms ih =>
    intro acc h
    unfold KnvProto.KnvNode.getMetas
    split
    swap
    · exact ih h
    split
    · exact ih h
    next a _ =>
    have hread : Read pl acc.node
        (acc.node.setMetaNode ((acc.node.metalist.find? fun x => x.self = a).getD (pool a)).getValue.1) [] := by
      cases hm : acc.node.metalist.find? fun x => x.self = a with
      | some x => exact .metaNode h.shaped.here hm (.step .fold)
      | none =>
        have hself : (pool a).getValue.1.self = a := (@ReadStep.fold pl (pool a)).self.trans (hpool a)
        have hsame : acc.node.setMetaNode (pool a).getValue.1 = acc.node := by
          refine setMetaNode_of_ne ?_
          rw [hself]
          simpa using List.find?_eq_none.mp hm
        rw [Option.getD_none, hsame]
        exact .done
    simp only
    split
    · next hv =>
      rw [hv] at hread
      exact h.next hread rfl ..
    · next hv =>
      rw [hv] at hread
      exact ih (h.next hread rfl ..)

/-- The children at some addresses are queried in their places. -/
theorem Reading.getMatches {query : KnvNode → Answer}
    (hquery : ∀ c, Shaped c → Read ⟨n.key.bytes != [], false⟩ c (query c).node []) : ∀ {as : List ℕ} {acc : Answer},
    Reading pl n acc → Reading pl n (getMatches query noEmpty req as acc) := by
  intro as
  induction as with
  | nil => exact fun h => h
  | cons a as ih =>
    intro acc h
    unfold KnvProto.KnvNode.getMatches
    split
    · exact ih h
    next c hc =>
    have hread : Read pl acc.node (acc.node.setChildNode (query c).node) [] := by
      refine .child h.shaped.here hc ?_
      rw [h.key]
      exact hquery c (h.shaped.children _ (List.mem_of_find?_eq_some hc))
    simp only
    split
    · exact h.next hread rfl ..
    · exact ih (h.next hread rfl ..)

theorem Reading.getChildren {query : KnvNode → KnvNode → Answer}
    (hquery : ∀ s c, Shaped c → Read ⟨n.key.bytes != [], false⟩ c (query s c).node []) :
    ∀ {ss : List KnvNode} {acc : Answer}, Reading pl n acc → Reading pl n (getChildren query noEmpty req ss acc) := by
  intro ss
  induction ss with
  | nil => exact fun h => h
  | cons s ss ih =>
    intro acc h
    have hmatch : Reading pl n (KnvNode.getMatches (query s) noEmpty req (acc.node.found s) acc) :=
      Reading.getMatches (hquery s) h
    unfold KnvProto.KnvNode.getChildren
    simp only
    generalize KnvNode.getMatches (query s) noEmpty req (acc.node.found s) acc = r at hmatch ⊢
    split
    · exact hmatch
    split
    · split
      · exact hmatch.same ..
      · exact ih (hmatch.same ..)
    · exact ih hmatch

/-- **`GetSubTree` only reads.** -/
theorem innerGetSubTreeFuel_read (hpool : ∀ a, (pool a).self = a) (noEmpty : Bool) : ∀ (fuel : ℕ) (reqKeyed : Bool)
    (pl : Place) (req n : KnvNode), Shaped n →
    Read pl n (innerGetSubTreeFuel pool noEmpty fuel reqKeyed pl.parentKeyed req n).node [] := by
  intro fuel
  induction fuel with
  | zero => exact fun _ _ _ _ _ => .done
  | succ fuel ih =>
    intro reqKeyed pl req n hn
    unfold innerGetSubTreeFuel
    split
    · exact .done
    simp only
    generalize req.innerExpand reqKeyed false = r
    split
    · split <;> exact .done
    have hopen : Read pl n (n.innerExpand pl.parentKeyed !r.childHasKey) [] := .step (.expand _)
    have hn' := hn.innerExpand pl.parentKeyed !r.childHasKey
    generalize n.innerExpand pl.parentKeyed (!r.childHasKey) = n' at hopen hn' ⊢
    split
    · split
      · exact hopen
      split <;> exact hopen
    have hmetas : Reading pl n' (KnvNode.getMetas pool r.metalist { node := n' }) :=
      Reading.getMetas hpool ⟨.done, hn', rfl⟩
    generalize KnvNode.getMetas pool r.metalist { node := n' } = acc at hmetas ⊢
    split
    · exact hopen.trans hmetas.read
    have hchildren : Reading pl n' (getChildren (innerGetSubTreeFuel pool noEmpty fuel (r.key.bytes != [])
        (n'.key.bytes != [])) noEmpty r r.childlist acc) :=
      hmetas.getChildren fun s c hc => ih (r.key.bytes != []) ⟨n'.key.bytes != [], false⟩ s c hc
    split
    · exact hopen.trans hchildren.read
    · exact hopen.trans hchildren.read

theorem getSubTreeAt_read (hpool : ∀ a, (pool a).self = a) (noEmpty : Bool) (req : KnvNode) (pl : Place) {n : KnvNode}
    (hn : Shaped n) : Read pl n (getSubTreeAt pool noEmpty req pl n).node [] := by
  unfold getSubTreeAt
  split
  · exact .done
  split
  · exact .done
  · exact innerGetSubTreeFuel_read hpool noEmpty _ false pl req n hn

theorem makeRequests_read {make : KnvNode → KnvNode × Option KnvNode}
    (hmake : ∀ c, Read ⟨n.key.bytes != [], false⟩ c (make c).1 []) : ∀ (cs pre : List KnvNode) (tr : KnvNode),
    Read pl { n with childlist := pre ++ cs } { n with childlist := pre ++ (makeRequests make cs tr).1 } [] := by
  intro cs
  induction cs with
  | nil => exact fun _ _ => .done
  | cons c cs ih =>
    intro pre tr
    have hslot : ({ n with childlist := pre ++ c :: cs } : KnvNode).slot (.ofChild pre.length) = some c := by
      show (pre ++ c :: cs)[pre.length]? = some c
      rw [List.getElem?_append_right (Nat.le_refl _), Nat.sub_self, List.getElem?_cons_zero]
    have hone := @Read.inside pl { n with childlist := pre ++ c :: cs } _ _ (.ofChild pre.length) (hmake c) hslot
    have hset : (pre ++ c :: cs).set pre.length (make c).1 = pre ++ (make c).1 :: cs := by simp
    rw [setSlot_ofChild, hset] at hone
    unfold makeRequests
    cases hm : make c with
    | mk c' r =>
      rw [hm] at hone
      cases r with
      | none => exact hone
      | some r =>
        have hrest := ih (pre ++ [c']) (innerInsertChild r true true true tr).node
        rw [List.append_assoc, List.append_assoc] at hrest
        exact hone.trans hrest

/-- **`MakeRequestTree` only reads.** -/
theorem makeRequestTreeLevels_read : ∀ (levels : ℕ) (pl : Place) (n : KnvNode),
    Read pl n (makeRequestTreeLevels levels pl.parentKeyed n).1 [] := by
  intro levels
  induction levels with
  | zero => exact fun _ _ => .done
  | succ levels ih =>
    intro pl n
    unfold makeRequestTreeLevels
    split
    · exact .done
    have hopen : Read pl n (n.innerExpand pl.parentKeyed false) [] := .step (.expand _)
    simp only
    generalize n.innerExpand pl.parentKeyed false = n' at hopen ⊢
    split
    · exact hopen
    split
    · exact hopen
    next tr _ =>
    refine hopen.trans ?_
    have hloop := @makeRequests_read pl n' _ (fun c => ih ⟨n'.key.bytes != [], false⟩ c) n'.childlist [] tr
    obtain ⟨d, ms, cs⟩ := n'
    exact hloop

end KnvNode

/-! ### Runs -/

open KnvNode

/-- A query of a node. -/
inductive QueryOp where
  /-- `FindChild`, `FindChildByTag`, `GetFirstChild`, `GetMeta`, ...: the lookups. -/
  | lookup
  /-- `GetValue`. -/
  | getValue
  /-- `GetSubTree`, with what lies at the addresses of metas that are gone. -/
  | getSubTree (pool : ℕ → KnvNode) (noEmpty : Bool) (req : KnvNode)
  /-- `MakeRequestTree`. -/
  | makeRequestTree (maxLevel : ℤ)

/-- What a query leaves of the node, for its parent. -/
def QueryOp.run : QueryOp → Place → KnvNode → Out
  | lookup, pl, n => n.expandOp pl
  | getValue, _, n => n.getValueOp
  | getSubTree pool noEmpty req, pl, n =>
    let r := getSubTreeAt pool noEmpty req pl n
    ⟨r.node, [], r.ret.map fun _ => 0⟩
  | makeRequestTree maxLevel, pl, n => ⟨(makeRequestTreeLevels (maxLevel + 1).toNat pl.parentKeyed n).1, [], .ok 0⟩

/-- What lies at an address has it. -/
def QueryOp.Ok : QueryOp → Prop
  | getSubTree pool _ _ => ∀ a, (pool a).self = a
  | _ => True

namespace KnvNode

variable {n n' : KnvNode}

theorem QueryOp.read {q : QueryOp} (hq : q.Ok) (pl : Place) (hn : Shaped n) :
    Read pl n (q.run pl n).node (q.run pl n).msgs := by
  cases q with
  | lookup =>
    show Read pl n (n.expandOp pl).node (n.expandOp pl).msgs
    unfold expandOp expand
    split
    · next h =>
      split at h
      · cases h
      · exact .done
    · next h =>
      split at h
      · cases h
        exact .step (.expand false)
      · cases h
  | getValue => exact .step .fold
  | getSubTree pool noEmpty req => exact getSubTreeAt_read hq noEmpty req pl hn
  | makeRequestTree maxLevel => exact makeRequestTreeLevels_read _ pl n

/-- A tree as it was: it is the same node, with the same size, and `Serialize` does the same. -/
structure Unseen (n n' : KnvNode) : Prop where
  tag : n'.tag = n.tag
  key : n'.key = n.key
  size : n'.evaluateSize.evalSz = n.evaluateSize.evalSz
  serialize : ∀ len out, n'.serialize len true = .ok out ↔ n.serialize len true = .ok out
  str : ∀ out, n'.serializeStr = .ok out ↔ n.serializeStr = .ok out

end KnvNode

end KnvProto
