import Mathlib.Data.List.Nodup
import KnvProto.Node.Buffers

/-!
# Values that share a buffer

Two metas of a node are set, one after the other. A new meta has its value in a buffer of its own; a meta that exists is
put into the buffer of the node, where the values are that the node was expanded to, and the last meta that was
overwritten. `metasKept_of_run` says when every value below the node comes through this.

## The model

What the allocation of the node's buffer and the copy into it do to the buffers that were there is a `Strike`: a block is
freed, and bytes are written to the beginning of a buffer.
-/

namespace KnvProto.Buffers

/-- What overwriting a meta does to the buffers that are there: the block that is freed, and the buffer that the bytes
go to, if it is not a new one. -/
structure Strike where
  /-- The block that is freed. -/
  freed : Option ℕ
  /-- The buffer. -/
  buf : Option Buf
  /-- The bytes. -/
  bytes : Bytes

/-- What `alloc` and the copy do for a node with this `dyn_data`. -/
def DynData.strike (d : DynData) (bs : Bytes) : Strike :=
  if bs.length ≤ 64 then ⟨d.mem, some .own, bs⟩
  else
    match d.data, d.fits bs.length with
    | some b, true => ⟨none, some b, bs⟩
    | _, _ => ⟨d.mem, none, bs⟩

/-- The byte that was written last at a place of a buffer. -/
def lastWrite : List Strike → Buf → ℕ → Option UInt8
  | [], _, _ => none
  | k :: l, b, j => (lastWrite l b j).or (if k.buf = some b then k.bytes[j]? else none)

/-- A string with these bytes comes through: it is empty, or its buffer is not freed, and whatever is written over it
are the bytes that it has. -/
def Survives (l : List Strike) (v : Str) (byte : ℕ → Option UInt8) : Prop :=
  v.len = 0 ∨ (∀ k ∈ l, k.freed.map Buf.block ≠ some v.buf) ∧
    ∀ i < v.len, ∀ x, lastWrite l v.buf (v.off + i) = some x → byte (v.off + i) = some x

/-- Read the value of a node. -/
def Mem.readVal (M : Mem) (v : Option Str) : Option Bytes :=
  match v with
  | some v => M.read v
  | none => some []

namespace Bufs

/-- What is expected of `SetMetaStr(t, a)` and then `SetMetaStr(u, b)`. -/
structure MetasKept (s : Bufs) (t : UInt32) (a : Bytes) (u : UInt32) (b : Bytes) : Prop where
  /-- The first string is read. -/
  first : ((s.setMetaStr t a).setMetaStr u b).getMetaStr t = some a
  /-- The second string is read. -/
  second : ((s.setMetaStr t a).setMetaStr u b).getMetaStr u = some b
  /-- Every other meta is there and has its value. -/
  metas : ∀ m ∈ s.metalist, s.metaAt t ≠ some m → s.metaAt u ≠ some m → m ∈ ((s.setMetaStr t a).setMetaStr u b).metalist ∧
    ((s.setMetaStr t a).setMetaStr u b).mem.readVal m.val = s.mem.readVal m.val
  /-- The children, and what is below them, are there and have their values. -/
  below : ((s.setMetaStr t a).setMetaStr u b).below = s.below ∧
    ∀ c ∈ s.below, ((s.setMetaStr t a).setMetaStr u b).mem.readVal c.val = s.mem.readVal c.val

/-- The strikes of the two calls: one for each of the metas that exist. -/
def strikes (s : Bufs) (t : UInt32) (a : Bytes) (u : UInt32) (b : Bytes) : List Strike :=
  (if (s.metaAt t).isSome then [s.dyn.strike a] else []) ++
    if (s.metaAt u).isSome then
      [(if (s.metaAt t).isSome then (s.dyn.alloc .own a.length s.mem).1 else s.dyn).strike b]
    else []

/-- No value is in the way of the two strings. -/
structure Undisturbed (s : Bufs) (t : UInt32) (a : Bytes) (u : UInt32) (b : Bytes) : Prop where
  /-- The values that were there come through. -/
  others : ∀ m, (m ∈ s.metalist ∧ s.metaAt t ≠ some m ∧ s.metaAt u ≠ some m ∨ m ∈ s.below) → ∀ v, m.val = some v →
    Survives (s.strikes t a u b) v fun j => (s.mem.content v.buf).bind fun bs => bs[j]?
  /-- If both metas exist, the first string comes through the second strike. -/
  first : (s.metaAt t).isSome → (s.metaAt u).isSome → Survives [(s.dyn.alloc .own a.length s.mem).1.strike b]
    ⟨(s.dyn.alloc .own a.length s.mem).2.2, 0, a.length⟩ fun j => a[j]?

end Bufs

/-! ### Strikes -/

/-- What a buffer that was there holds after a strike. -/
def Strike.hit (k : Strike) (c : Buf → Option Bytes) (b : Buf) : Option Bytes :=
  if k.freed.map Buf.block = some b then none
  else if k.buf = some b then (c b).map fun bs => k.bytes ++ bs.drop k.bytes.length
  else c b

/-- What a buffer that was there holds after several strikes. -/
def hits (l : List Strike) (c : Buf → Option Bytes) : Buf → Option Bytes := l.foldl (fun c k => k.hit c) c

variable {l : List Strike} {c : Buf → Option Bytes} {b : Buf} {v : Str}

theorem hits_of_none (h : c b = none) : hits l c b = none := by
  induction l generalizing c with
  | nil => exact h
  | cons k l ih =>
    refine ih ?_
    show k.hit c b = none
    unfold Strike.hit
    split
    · rfl
    · split
      · rw [h]
        rfl
      · exact h

/-- A block that is freed holds nothing. -/
theorem hits_of_freed {k : Strike} (hk : k ∈ l) (hfree : k.freed.map Buf.block = some b) : hits l c b = none := by
  induction l generalizing c with
  | nil => exact absurd hk List.not_mem_nil
  | cons k' l ih =>
    rcases List.mem_cons.mp hk with rfl | hk
    · show hits l (k.hit c) b = none
      refine hits_of_none ?_
      rw [Strike.hit, if_pos hfree]
    · exact ih hk

theorem getElem?_overwrite (s bs : Bytes) (j : ℕ) : (s ++ bs.drop s.length)[j]? = (s[j]?).or bs[j]? := by
  by_cases h : j < s.length
  · rw [List.getElem?_append_left h, List.getElem?_eq_getElem h]
    rfl
  · rw [List.getElem?_append_right (Nat.le_of_not_lt h), List.getElem?_drop, List.getElem?_eq_none (Nat.le_of_not_lt h),
      Option.none_or]
    congr 1
    omega

/-- A buffer that is not freed holds the bytes that were written last, and the old ones elsewhere. -/
theorem hits_of_kept {bs : Bytes} (hfree : ∀ k ∈ l, k.freed.map Buf.block ≠ some b) (h : c b = some bs) :
    ∃ bs', hits l c b = some bs' ∧ ∀ j, bs'[j]? = (lastWrite l b j).or bs[j]? := by
  induction l generalizing c bs with
  | nil => exact ⟨bs, h, fun j => rfl⟩
  | cons k l ih =>
    have hk := hfree k (List.mem_cons_self ..)
    have hl := fun k' hk' => hfree k' (List.mem_cons_of_mem _ hk')
    by_cases hbuf : k.buf = some b
    · have hhit : k.hit c b = some (k.bytes ++ bs.drop k.bytes.length) := by
        rw [Strike.hit, if_neg hk, if_pos hbuf, h]
        rfl
      obtain ⟨bs', hbs', hget⟩ := ih hl hhit
      refine ⟨bs', hbs', fun j => ?_⟩
      rw [hget j, getElem?_overwrite, lastWrite, if_pos hbuf, Option.or_assoc]
    · have hhit : k.hit c b = some bs := by
        rw [Strike.hit, if_neg hk, if_neg hbuf, h]
      obtain ⟨bs', hbs', hget⟩ := ih hl hhit
      refine ⟨bs', hbs', fun j => ?_⟩
      rw [hget j, lastWrite, if_neg hbuf, Option.or_none]

theorem lastWrite_none {j : ℕ} (h : ∀ k ∈ l, k.buf ≠ some b) : lastWrite l b j = none := by
  induction l with
  | nil => rfl
  | cons k l ih =>
    rw [lastWrite, ih fun k' hk' => h k' (List.mem_cons_of_mem _ hk'), if_neg (h k (List.mem_cons_self ..))]
    rfl

theorem survives_congr {f g : ℕ → Option UInt8} (h : ∀ i < v.len, f (v.off + i) = g (v.off + i)) :
    Survives l v f ↔ Survives l v g := by
  refine or_congr Iff.rfl (and_congr Iff.rfl ?_)
  constructor
  · intro hs i hi x hx
    rw [← h i hi]
    exact hs i hi x hx
  · intro hs i hi x hx
    rw [h i hi]
    exact hs i hi x hx

/-- The bytes of a string at the beginning of a buffer. -/
theorem bytes_of_read {M : Mem} {a : Bytes} (h : M.read ⟨b, 0, a.length⟩ = some a) (j : ℕ) (hj : j < a.length) :
    (M.content b).bind (fun bs => bs[0 + j]?) = a[0 + j]? := by
  unfold Mem.read at h
  rw [if_neg (show ¬a.length = 0 by omega)] at h
  obtain ⟨bs, hbs, htake⟩ := Option.map_eq_some_iff.mp h
  rw [hbs, Option.bind_some, Nat.zero_add]
  have hget := congrArg (fun l : Bytes => l[j]?) htake
  simpa [List.getElem?_take, hj] using hget

/-- **A string reads the same after the strikes exactly when it comes through.** -/
theorem read_hits_iff {M M' : Mem} (hc : M'.content v.buf = hits l M.content v.buf)
    (hlive : ∀ k ∈ l, k.freed.map Buf.block = some v.buf ∨ k.buf = some v.buf → (M.content v.buf).isSome) :
    M'.read v = M.read v ↔ Survives l v fun j => (M.content v.buf).bind fun bs => bs[j]? := by
  unfold Survives Mem.read
  by_cases hlen : v.len = 0
  · simp [hlen]
  rw [if_neg hlen, if_neg hlen, hc]
  simp only [hlen, false_or]
  cases hbs : M.content v.buf with
  | none =>
    rw [hits_of_none hbs]
    simp only [Option.map_none, true_iff]
    have hno : ∀ k ∈ l, ¬(k.freed.map Buf.block = some v.buf ∨ k.buf = some v.buf) := fun k hk hor => by
      have hsome := hlive k hk hor
      rw [hbs] at hsome
      cases hsome
    refine ⟨fun k hk => fun hfree => hno k hk (.inl hfree), fun i _ x hx => ?_⟩
    rw [lastWrite_none fun k hk hbuf => hno k hk (.inr hbuf)] at hx
    cases hx
  | some bs =>
    by_cases hfree : ∀ k ∈ l, k.freed.map Buf.block ≠ some v.buf
    · obtain ⟨bs', hbs', hget⟩ := hits_of_kept hfree hbs
      rw [hbs', Option.map_some, Option.map_some, Option.some.injEq]
      simp only [Option.bind_some]
      constructor
      · intro heq
        refine ⟨hfree, fun i hi x hx => ?_⟩
        have hi' := congrArg (fun l : Bytes => l[i]?) heq
        simp only [List.getElem?_take, if_pos hi, List.getElem?_drop, hget, hx, Option.some_or] at hi'
        exact hi'.symm
      · rintro ⟨-, hsame⟩
        refine List.ext_getElem? fun i => ?_
        simp only [List.getElem?_take, List.getElem?_drop]
        split
        · next hi =>
          rw [hget]
          cases hx : lastWrite l v.buf (v.off + i) with
          | none => rfl
          | some x => exact (hsame i hi x hx).symm
        · rfl
    · have hfree' : ∃ k ∈ l, k.freed.map Buf.block = some v.buf := by simpa using hfree
      obtain ⟨k, hk, hkb⟩ := hfree'
      rw [hits_of_freed hk hkb]
      refine ⟨fun h => absurd h (by simp), fun h => absurd hkb (h.1 k hk)⟩

/-! ### Allocation -/

/-- The buffer is one that has been given away. -/
def Bufs.Old (s : Bufs) : Buf → Prop
  | .small a => a < s.slots
  | .block id => id < s.mem.next
  | _ => True

/-- What holds of a node below. -/
structure Bufs.Stowed (s : Bufs) (m : NodeBuf) : Prop where
  self : m.self < s.slots
  val : ∀ v, m.val = some v → s.Old v.buf
  /-- Its block is not the node's. -/
  mem : ∀ id, m.dyn.mem = some id → id < s.mem.next ∧ s.dyn.mem ≠ some id ∧ s.dyn.data ≠ some (.block id)
  data : ∀ b, m.dyn.data = some b → s.Old b

/-- What holds in every state. -/
structure Bufs.Sound (s : Bufs) : Prop where
  nodup : (s.metalist.map (·.self)).Nodup
  metas : ∀ t a, s.metas t = some a → a < s.slots
  inj : ∀ t u a, s.metas t = some a → s.metas u = some a → t = u
  own : (s.mem.content .own).isSome
  /-- The buffer of the node is in use. -/
  data : ∀ b, s.dyn.data = some b → s.Old b ∧ (s.mem.content b).isSome
  /-- So is its block. -/
  mem : ∀ id, s.dyn.mem = some id → id < s.mem.next ∧ (s.mem.content (.block id)).isSome
  nodes : ∀ m ∈ s.metalist ++ s.below, s.Stowed m

/-- The three ways of `alloc`. -/
theorem alloc_cases (small : Buf) (req : ℕ) (d : DynData) (M : Mem) :
    (req ≤ 64 ∧ d.alloc small req M = ({ sz := 64, data := some small }, M.free d.mem, small)) ∨
    (64 < req ∧ ∃ b, d.data = some b ∧ d.fits req = true ∧ d.alloc small req M = (d, M, b)) ∨
    (64 < req ∧ (d.data = none ∨ d.fits req = false) ∧ ∃ sz, d.alloc small req M =
      ({ sz := sz, data := some (.block M.next), mem := some M.next },
        { content := fun b => if b = .block M.next then some [] else (M.free d.mem).content b, next := M.next + 1 },
        .block M.next)) := by
  unfold DynData.alloc
  by_cases hsmall : req ≤ 64
  · exact .inl ⟨hsmall, if_pos hsmall⟩
  · rw [if_neg hsmall]
    have hreq : 64 < req := by omega
    cases hdata : d.data with
    | none => exact .inr (.inr ⟨hreq, .inl rfl, _, rfl⟩)
    | some b =>
      cases hfits : d.fits req with
      | true => exact .inr (.inl ⟨hreq, b, rfl, rfl, rfl⟩)
      | false => exact .inr (.inr ⟨hreq, .inr rfl, _, rfl⟩)

theorem content_free (M : Mem) (mem : Option ℕ) (b : Buf) :
    (M.free mem).content b = if mem.map Buf.block = some b then none else M.content b := rfl

theorem content_memcpy (M : Mem) (b b' : Buf) (bs : Bytes) :
    (M.memcpy b bs).content b' = if b' = b then some (bs ++ ((M.content b).getD []).drop bs.length) else M.content b' := rfl

theorem isSome_memcpy {M : Mem} {b : Buf} (h : (M.content b).isSome) (b' : Buf) (bs : Bytes) :
    ((M.memcpy b' bs).content b).isSome := by
  rw [content_memcpy]
  split
  · rfl
  · exact h

/-- What was written is read. -/
theorem read_memcpy (M : Mem) (b : Buf) (bs : Bytes) : (M.memcpy b bs).read ⟨b, 0, bs.length⟩ = some bs := by
  unfold Mem.read
  by_cases hlen : bs.length = 0
  · rw [if_pos hlen, List.length_eq_zero_iff.mp hlen]
  · rw [if_neg hlen, content_memcpy, if_pos rfl, Option.map_some, List.drop_zero, List.take_left]

/-- What overwriting a meta does to the buffers. -/
structure Overwritten (s : Bufs) (bs : Bytes) (d : DynData) (M : Mem) (b : Buf) : Prop where
  /-- The buffers that were there take a strike. -/
  hit : ∀ b', s.Old b' → (M.memcpy b bs).content b' = (s.dyn.strike bs).hit s.mem.content b'
  next : s.mem.next ≤ M.next
  data : d.data = some b
  /-- The bytes are in the node's own `small_buf`, in its buffer, or in a new block. -/
  buf : b = .own ∨ s.dyn.data = some b ∨ b = .block s.mem.next ∧ s.mem.next < M.next
  mem : d.mem = none ∨ d.mem = s.dyn.mem ∧ (s.dyn.strike bs).freed = none ∨ d.mem = some s.mem.next ∧ b = .block s.mem.next ∧
    s.mem.next < M.next

theorem overwritten_alloc {s : Bufs} (h : s.Sound) (bs : Bytes) :
    Overwritten s bs (s.dyn.alloc .own bs.length s.mem).1 (s.dyn.alloc .own bs.length s.mem).2.1
      (s.dyn.alloc .own bs.length s.mem).2.2 := by
  rcases alloc_cases .own bs.length s.dyn s.mem with ⟨hreq, heq⟩ | ⟨hreq, b, hdata, hfits, heq⟩ | ⟨hreq, hno, sz, heq⟩
  · -- the small buffer
    rw [heq]
    have hstrike : s.dyn.strike bs = ⟨s.dyn.mem, some .own, bs⟩ := if_pos hreq
    refine ⟨fun b' _ => ?_, Nat.le_refl _, rfl, .inl rfl, .inl rfl⟩
    rw [hstrike, content_memcpy, content_free, Strike.hit, content_free]
    have hown : s.dyn.mem.map Buf.block ≠ some .own := by cases s.dyn.mem <;> simp
    by_cases hb : b' = .own
    · obtain ⟨c, hc⟩ := Option.isSome_iff_exists.mp h.own
      subst hb
      rw [if_pos rfl, if_neg hown, if_neg hown, if_pos rfl, hc]
      rfl
    · rw [if_neg hb, if_neg (show ¬some Buf.own = some b' from fun he => hb (Option.some.inj he).symm)]
  · -- the buffer that is there
    rw [heq]
    have hstrike : s.dyn.strike bs = ⟨none, some b, bs⟩ := by
      rw [DynData.strike, if_neg (by omega), hdata, hfits]
    refine ⟨fun b' _ => ?_, Nat.le_refl _, hdata, .inr (.inl hdata), .inr (.inl ⟨rfl, by rw [hstrike]⟩)⟩
    show (s.mem.memcpy b bs).content b' = _
    rw [hstrike, content_memcpy, Strike.hit, if_neg (show ¬Option.map Buf.block none = some b' from nofun)]
    by_cases hb : b' = b
    · obtain ⟨c, hc⟩ := Option.isSome_iff_exists.mp (h.data b hdata).2
      subst hb
      rw [if_pos rfl, if_pos rfl, hc]
      rfl
    · rw [if_neg hb, if_neg (show ¬some b = some b' from fun he => hb (Option.some.inj he).symm)]
  · -- a new block
    rw [heq]
    have hstrike : s.dyn.strike bs = ⟨s.dyn.mem, none, bs⟩ := by
      rw [DynData.strike, if_neg (by omega)]
      split
      · next b hdata hfits =>
        rcases hno with hno | hno
        · rw [hno] at hdata
          cases hdata
        · rw [hno] at hfits
          cases hfits
      · rfl
    refine ⟨fun b' hold => ?_, Nat.le_succ _, rfl, .inr (.inr ⟨rfl, Nat.lt_succ_self _⟩),
      .inr (.inr ⟨rfl, rfl, Nat.lt_succ_self _⟩)⟩
    have hb : b' ≠ .block s.mem.next := by
      rintro rfl
      exact Nat.lt_irrefl _ hold
    rw [hstrike, content_memcpy, if_neg hb, Strike.hit]
    simp only [if_neg hb, content_free]
    rw [if_neg (show ¬(none : Option Buf) = some b' from nofun)]

/-- A new node with a string of its own. -/
structure InitStr (s : Bufs) (tag : UInt32) (bs : Bytes) (m : NodeBuf) (M : Mem) : Prop where
  self : m.self = s.slots
  tag : m.tag = tag
  /-- The buffers that were there are as they were. -/
  content : ∀ b, s.Old b → M.content b = s.mem.content b
  next : s.mem.next ≤ M.next
  read : M.readVal m.val = some bs
  val : ∀ v, m.val = some v → v.buf = .small s.slots ∨ ∃ id, v.buf = .block id ∧ s.mem.next ≤ id ∧ id < M.next
  mem : ∀ id, m.dyn.mem = some id → s.mem.next ≤ id ∧ id < M.next
  data : ∀ b, m.dyn.data = some b → b = .small s.slots ∨ ∃ id, b = .block id ∧ id < M.next

theorem initStr_spec (s : Bufs) (tag : UInt32) (bs : Bytes) :
    InitStr s tag bs (s.initStr tag bs).1 (s.initStr tag bs).2 := by
  unfold Bufs.initStr
  by_cases hnil : bs = []
  · rw [if_pos hnil, hnil]
    exact ⟨rfl, rfl, fun _ _ => rfl, Nat.le_refl _, rfl, nofun, nofun, nofun⟩
  · rw [if_neg hnil]
    rcases alloc_cases (.small s.slots) bs.length {} s.mem with ⟨-, heq⟩ | ⟨-, b, hdata, -⟩ | ⟨-, -, sz, heq⟩
    · rw [heq]
      refine ⟨rfl, rfl, fun b hold => ?_, Nat.le_refl _, read_memcpy .., fun v hv => ?_, nofun, fun b hb => ?_⟩
      · have hb : b ≠ .small s.slots := by
          rintro rfl
          exact Nat.lt_irrefl _ hold
        rw [content_memcpy, if_neg hb]
        rfl
      · cases hv
        exact .inl rfl
      · cases hb
        exact .inl rfl
    · cases hdata
    · rw [heq]
      refine ⟨rfl, rfl, fun b hold => ?_, Nat.le_succ _, read_memcpy .., fun v hv => ?_, fun id hid => ?_, fun b hb => ?_⟩
      · have hb : b ≠ .block s.mem.next := by
          rintro rfl
          exact Nat.lt_irrefl _ hold
        rw [content_memcpy, if_neg hb]
        simp only [if_neg hb]
        rfl
      · cases hv
        exact .inr ⟨_, rfl, Nat.le_refl _, Nat.lt_succ_self _⟩
      · cases hid
        exact ⟨Nat.le_refl _, Nat.lt_succ_self _⟩
      · cases hb
        exact .inr ⟨_, rfl, Nat.lt_succ_self _⟩

namespace Bufs

variable {s : Bufs} {m x : NodeBuf} {t u : UInt32}

/-! ### The metas -/

theorem metaAt_eq (h : s.metaAt t = some m) : m ∈ s.metalist ∧ s.metas t = some m.self ∧ s.metalist ≠ [] := by
  unfold metaAt at h
  split at h
  · cases h
  · next hne =>
    obtain ⟨a, ha, hm⟩ := Option.bind_eq_some_iff.mp h
    have hself := List.find?_some (show List.find? _ _ = some m from hm)
    have hself' : m.self = a := of_decide_eq_true hself
    exact ⟨List.mem_of_find?_eq_some hm, hself'.symm ▸ ha, by simpa using hne⟩

/-- The node at an address among nodes with different addresses. -/
theorem find_self {l : List NodeBuf} (hnd : (l.map (·.self)).Nodup) (hm : m ∈ l) :
    (l.find? fun y => y.self = m.self) = some m := by
  induction l with
  | nil => exact absurd hm List.not_mem_nil
  | cons y l ih =>
    rw [List.map_cons, List.nodup_cons] at hnd
    rcases List.mem_cons.mp hm with rfl | hm
    · exact List.find?_cons_of_pos (by simp)
    · have hne : y.self ≠ m.self := fun he => hnd.1 (he ▸ List.mem_map.mpr ⟨m, hm, rfl⟩)
      rw [List.find?_cons_of_neg (by simpa using hne)]
      exact ih hnd.2 hm

theorem metaAt_addMeta (h : s.Sound) (hself : m.self = s.slots) :
    (s.addMeta m).metaAt m.tag = some m ∧ ∀ u ≠ m.tag, (s.addMeta m).metaAt u = s.metaAt u := by
  have hne : (s.addMeta m).metalist.isEmpty = false := by
    simp only [addMeta]
    split <;> simp
  have hfresh : ∀ y ∈ s.metalist, y.self ≠ m.self := fun y hy he => by
    have := (h.nodes y (List.mem_append_left _ hy)).self
    omega
  have hnone : ∀ p : NodeBuf → Bool, (∀ y ∈ s.metalist, p y = false) → s.metalist.find? p = none := fun p hp =>
    List.find?_eq_none.mpr fun y hy => by simp [hp y hy]
  constructor
  · unfold metaAt
    rw [if_neg (by simp [hne])]
    simp only [addMeta, if_true, Option.bind_some]
    split
    · exact List.find?_cons_of_pos (by simp)
    · rw [List.find?_append, hnone _ fun y hy => by simpa using hfresh y hy]
      simp
  · intro u hu
    unfold metaAt
    rw [if_neg (by simp [hne])]
    simp only [addMeta, if_neg hu]
    by_cases hempty : s.metalist.isEmpty = true
    · simp [hempty]
    · rw [if_neg hempty, if_neg hempty]
      cases ha : s.metas u with
      | none => rfl
      | some a =>
        have hlt := h.metas u a ha
        have hm : m.self ≠ a := by omega
        simp only [Option.bind_some]
        split
        · simp [hm]
        · simp [List.find?_append, hm]

theorem metaAt_setMetaNode (h : s.Sound) (hx : s.metaAt t = some x) (hself : m.self = x.self) :
    (s.setMetaNode m).metaAt t = some m ∧ ∀ u ≠ t, (s.setMetaNode m).metaAt u = s.metaAt u := by
  obtain ⟨hmem, hmetas, hne⟩ := metaAt_eq hx
  have hselfs : ((s.setMetaNode m).metalist.map (·.self)) = s.metalist.map (·.self) := by
    simp only [setMetaNode, List.map_map]
    refine List.map_congr_left fun y _ => ?_
    simp only [Function.comp_apply]
    split
    · next he => exact he.symm
    · rfl
  have hnd : ((s.setMetaNode m).metalist.map (·.self)).Nodup := hselfs ▸ h.nodup
  have hempty : (s.setMetaNode m).metalist.isEmpty = s.metalist.isEmpty := by simp [setMetaNode]
  have hfalse : s.metalist.isEmpty = false := by simpa using hne
  constructor
  · unfold metaAt
    rw [hempty, hfalse]
    have hmem' : m ∈ (s.setMetaNode m).metalist := List.mem_map.mpr ⟨x, hmem, if_pos hself.symm⟩
    have hfind := find_self hnd hmem'
    simpa [setMetaNode, hmetas, hself] using hfind
  · intro u hu
    cases hold : s.metaAt u with
    | some y =>
      obtain ⟨hy, hyu, -⟩ := metaAt_eq hold
      have hyx : y.self ≠ x.self := fun he => hu (h.inj u t y.self hyu (he ▸ hmetas))
      have hmem' : y ∈ (s.setMetaNode m).metalist :=
        List.mem_map.mpr ⟨y, hy, if_neg fun he => hyx (he.trans hself)⟩
      unfold metaAt
      rw [hempty, hfalse]
      have hfind := find_self hnd hmem'
      simpa [setMetaNode, hyu] using hfind
    | none =>
      unfold metaAt at hold ⊢
      rw [hfalse] at hold
      rw [hempty, hfalse]
      cases ha : s.metas u with
      | none => simp [setMetaNode, ha]
      | some a =>
        rw [ha] at hold
        have hnone : s.metalist.find? (fun y => decide (y.self = a)) = none := by simpa using hold
        have hnone' : (s.setMetaNode m).metalist.find? (fun y => decide (y.self = a)) = none := by
          refine List.find?_eq_none.mpr fun y hy hya => ?_
          have hin : y.self ∈ s.metalist.map (·.self) := hselfs ▸ List.mem_map.mpr ⟨y, hy, rfl⟩
          obtain ⟨z, hz, hzy⟩ := List.mem_map.mp hin
          exact List.find?_eq_none.mp hnone z hz (by simpa [hzy] using hya)
        simpa [setMetaNode, ha] using hnone'

/-! ### States that stay sound -/

variable {s' : Bufs} {M : Mem} {b : Buf} {bs : Bytes}

theorem Old.mono (h : s.Old b) (hslots : s.slots ≤ s'.slots) (hnext : s.mem.next ≤ s'.mem.next) : s'.Old b := by
  cases b with
  | own => trivial
  | small a => exact Nat.lt_of_lt_of_le h hslots
  | block id => exact Nat.lt_of_lt_of_le h hnext
  | outside => trivial

theorem Stowed.mono (h : s.Stowed m) (hdyn : s'.dyn = s.dyn) (hslots : s.slots ≤ s'.slots)
    (hnext : s.mem.next ≤ s'.mem.next) :
    s'.Stowed m where
  self := Nat.lt_of_lt_of_le h.self hslots
  val v hv := (h.val v hv).mono hslots hnext
  mem id hid := by
    rw [hdyn]
    exact ⟨Nat.lt_of_lt_of_le (h.mem id hid).1 hnext, (h.mem id hid).2⟩
  data b hb := (h.data b hb).mono hslots hnext

/-- Other buffers have changed. -/
theorem Sound.withMem (h : s.Sound) (hnext : s.mem.next ≤ M.next) (hown : (M.content .own).isSome)
    (hdata : ∀ b, s.dyn.data = some b → (M.content b).isSome)
    (hmem : ∀ id, s.dyn.mem = some id → (M.content (.block id)).isSome) :
    Sound { s with mem := M } where
  nodup := h.nodup
  metas := h.metas
  inj := h.inj
  own := hown
  data b hb := ⟨(h.data b hb).1.mono (Nat.le_refl _) hnext, hdata b hb⟩
  mem id hid := ⟨Nat.lt_of_lt_of_le (h.mem id hid).1 hnext, hmem id hid⟩
  nodes m hm := (h.nodes m hm).mono rfl (Nat.le_refl _) hnext

/-- The buffers that were there have not changed. -/
theorem Sound.withSame (h : s.Sound) (hnext : s.mem.next ≤ M.next) (hsame : ∀ b, s.Old b → M.content b = s.mem.content b) :
    Sound { s with mem := M } := by
  refine h.withMem hnext ?_ (fun b hb => ?_) fun id hid => ?_
  · rw [hsame .own trivial]
    exact h.own
  · rw [hsame b (h.data b hb).1]
    exact (h.data b hb).2
  · rw [hsame (.block id) (h.mem id hid).1]
    exact (h.mem id hid).2

/-- Some of the nodes below have gone, and others have come. -/
theorem Sound.withNodes (h : s.Sound) (hdyn : s'.dyn = s.dyn) (hmem : s'.mem = s.mem) (hslots : s.slots ≤ s'.slots)
    (hnd : (s'.metalist.map (·.self)).Nodup) (hmetas : ∀ t a, s'.metas t = some a → a < s'.slots)
    (hinj : ∀ t u a, s'.metas t = some a → s'.metas u = some a → t = u)
    (hnodes : ∀ m ∈ s'.metalist ++ s'.below, m ∈ s.metalist ++ s.below ∨ s'.Stowed m) : s'.Sound where
  nodup := hnd
  metas := hmetas
  inj := hinj
  own := hmem ▸ h.own
  data b hb := by
    rw [hdyn] at hb
    exact ⟨(h.data b hb).1.mono hslots (hmem ▸ Nat.le_refl _), hmem ▸ (h.data b hb).2⟩
  mem id hid := by
    rw [hdyn] at hid
    exact hmem ▸ h.mem id hid
  nodes m hm := (hnodes m hm).elim (fun hm => (h.nodes m hm).mono hdyn hslots (hmem ▸ Nat.le_refl _)) id

/-- A node that is added: its value is in its own `small_buf` or in a buffer that was there. -/
structure New (s : Bufs) (m : NodeBuf) : Prop where
  self : m.self = s.slots
  val : ∀ v, m.val = some v → v.buf = .small s.slots ∨ s.Old v.buf
  mem : ∀ id, m.dyn.mem = some id → id < s.mem.next ∧ s.dyn.mem ≠ some id ∧ s.dyn.data ≠ some (.block id)
  data : ∀ b, m.dyn.data = some b → b = .small s.slots ∨ s.Old b

theorem New.stowed (hm : s.New m) (hslots : s'.slots = s.slots + 1) (hdyn : s'.dyn = s.dyn) (hmem : s'.mem = s.mem) :
    s'.Stowed m := by
  have hnew : ∀ b, b = .small s.slots ∨ s.Old b → s'.Old b := by
    rintro b (rfl | hb)
    · show s.slots < s'.slots
      omega
    · exact hb.mono (by omega) (hmem ▸ Nat.le_refl _)
  refine ⟨?_, fun v hv => hnew _ (hm.val v hv), fun id hid => ?_, fun b hb => hnew b (hm.data b hb)⟩
  · have := hm.self
    omega
  · rw [hdyn, hmem]
    exact hm.mem id hid

/-- A meta is added: its address is new. -/
theorem metas_add (h : s.Sound) (hself : m.self = s.slots) (p : Bool) :
    (∀ t a, (if t = m.tag then some m.self else if p then none else s.metas t) = some a → a < s.slots + 1) ∧
      ∀ t u a, (if t = m.tag then some m.self else if p then none else s.metas t) = some a →
        (if u = m.tag then some m.self else if p then none else s.metas u) = some a → t = u := by
  have hold : ∀ t a, (if p then none else s.metas t) = some a → s.metas t = some a ∧ a < s.slots := by
    intro t a ha
    split at ha
    · cases ha
    · exact ⟨ha, h.metas t a ha⟩
  constructor
  · intro t a ha
    split at ha
    · cases ha
      omega
    · have := (hold t a ha).2
      omega
  · intro t u a ht hu
    split at ht
    · next htm =>
      cases ht
      split at hu
      · next hum => rw [htm, hum]
      · have := (hold u _ hu).2
        omega
    · split at hu
      · cases hu
        have := (hold t _ ht).2
        omega
      · exact h.inj t u a (hold t a ht).1 (hold u a hu).1

/-- A meta is put somewhere into `metalist`. -/
theorem Sound.joins (h : s.Sound) (hm : s.New m) (hdyn : s'.dyn = s.dyn) (hmem : s'.mem = s.mem)
    (hslots : s'.slots = s.slots + 1) (hperm : s'.metalist.Perm (m :: s.metalist))
    (hmetas : s'.metas = fun t => if t = m.tag then some m.self else if s.metalist.isEmpty then none else s.metas t)
    (hbelow : s'.below = s.below) : s'.Sound := by
  have hfresh : m.self ∉ s.metalist.map (·.self) := by
    intro hmem
    obtain ⟨y, hy, hym⟩ := List.mem_map.mp hmem
    have := (h.nodes y (List.mem_append_left _ hy)).self
    have := hm.self
    omega
  obtain ⟨hlt, hinj⟩ := metas_add h hm.self s.metalist.isEmpty
  refine h.withNodes hdyn hmem (by omega) ?_ ?_ ?_ fun y hy => ?_
  · rw [(hperm.map _).nodup_iff, List.map_cons, List.nodup_cons]
    exact ⟨hfresh, h.nodup⟩
  · rw [hmetas, hslots]
    exact hlt
  · rw [hmetas]
    exact hinj
  · rcases List.mem_append.mp hy with hy | hy
    · rcases List.mem_cons.mp (hperm.mem_iff.mp hy) with rfl | hy
      · exact .inr (hm.stowed hslots hdyn hmem)
      · exact .inl (List.mem_append_left _ hy)
    · exact .inl (List.mem_append_right _ (hbelow ▸ hy))

theorem Sound.addMeta (h : s.Sound) (hm : s.New m) : (s.addMeta m).Sound := by
  refine h.joins hm rfl rfl rfl ?_ rfl rfl
  simp only [Bufs.addMeta]
  split
  · exact .refl _
  · exact List.perm_append_singleton m s.metalist

/-- A node is put below. -/
theorem Sound.addBelow (h : s.Sound) (hm : s.New m) : Sound { s with below := s.below ++ [m], slots := s.slots + 1 } := by
  refine h.withNodes rfl rfl (Nat.le_succ _) h.nodup (fun t a ha => Nat.lt_succ_of_lt (h.metas t a ha)) h.inj fun y hy => ?_
  rcases List.mem_append.mp hy with hy | hy
  · exact .inl (List.mem_append_left _ hy)
  · rcases List.mem_append.mp hy with hy | hy
    · exact .inl (List.mem_append_right _ hy)
    · rw [List.mem_singleton.mp hy]
      exact .inr (hm.stowed rfl rfl rfl)

theorem sound_setMetaNode (h : s.Sound) (hm : s.Stowed m) : (s.setMetaNode m).Sound := by
  have hselfs : ((s.setMetaNode m).metalist.map (·.self)) = s.metalist.map (·.self) := by
    simp only [setMetaNode, List.map_map]
    refine List.map_congr_left fun y _ => ?_
    simp only [Function.comp_apply]
    split
    · next he => exact he.symm
    · rfl
  refine h.withNodes rfl rfl (Nat.le_refl _) (hselfs ▸ h.nodup) h.metas h.inj fun y hy => ?_
  rcases List.mem_append.mp hy with hy | hy
  · obtain ⟨z, hz, rfl⟩ := List.mem_map.mp hy
    split
    · exact .inr (hm.mono rfl (Nat.le_refl _) (Nat.le_refl _))
    · exact .inl (List.mem_append_left _ hz)
  · exact .inl (List.mem_append_right _ hy)

/-- The node's buffer takes other bytes, and a meta is in it. -/
theorem Sound.overwritten (h : s.Sound) {d : DynData} (ho : Overwritten s bs d M b) :
    Sound { s with dyn := d, mem := M.memcpy b bs } ∧ Old { s with dyn := d, mem := M.memcpy b bs } b := by
  have hold : Old { s with dyn := d, mem := M.memcpy b bs } b := by
    rcases ho.buf with rfl | hb | ⟨rfl, hlt⟩
    · trivial
    · exact (h.data b hb).1.mono (Nat.le_refl _) ho.next
    · exact hlt
  have hlive : ((M.memcpy b bs).content b).isSome := by
    rw [content_memcpy, if_pos rfl]
    rfl
  refine ⟨⟨h.nodup, h.metas, h.inj, ?_, fun b' hb' => ?_, fun id hid => ?_, fun m hm => ?_⟩, hold⟩
  · -- `small_buf` is never freed
    obtain ⟨c, hc⟩ := Option.isSome_iff_exists.mp h.own
    rw [ho.hit .own trivial, Strike.hit, if_neg (by cases (s.dyn.strike bs).freed <;> simp), hc]
    split <;> rfl
  · have hbb : b' = b := Option.some.inj (hb'.symm.trans ho.data)
    subst hbb
    exact ⟨hold, hlive⟩
  · rcases ho.mem with hnone | ⟨hsame, hfree⟩ | ⟨hnew, rfl, hlt⟩
    · rw [hnone] at hid
      cases hid
    · rw [hsame] at hid
      obtain ⟨hlt, hsome⟩ := h.mem id hid
      refine ⟨Nat.lt_of_lt_of_le hlt ho.next, ?_⟩
      obtain ⟨c, hc⟩ := Option.isSome_iff_exists.mp hsome
      rw [ho.hit (.block id) hlt, Strike.hit, hfree, hc]
      simp only [Option.map_none, reduceCtorEq, if_false]
      split <;> rfl
    · rw [hnew] at hid
      cases hid
      exact ⟨hlt, hlive⟩
  · have hm' := h.nodes m hm
    refine ⟨hm'.self, fun v hv => (hm'.val v hv).mono (Nat.le_refl _) ho.next, fun id hid => ?_,
      fun b' hb' => (hm'.data b' hb').mono (Nat.le_refl _) ho.next⟩
    obtain ⟨hlt, hmem, hdata⟩ := hm'.mem id hid
    refine ⟨Nat.lt_of_lt_of_le hlt ho.next, ?_, ?_⟩
    · rcases ho.mem with hnone | ⟨hsame, -⟩ | ⟨hnew, -, -⟩
      · rw [hnone]
        exact nofun
      · rw [hsame]
        exact hmem
      · rw [hnew]
        intro he
        cases he
        exact Nat.lt_irrefl _ hlt
    · rw [ho.data]
      rcases ho.buf with rfl | hb | ⟨rfl, -⟩
      · exact nofun
      · exact hb ▸ hdata
      · intro he
        cases he
        exact Nat.lt_irrefl _ hlt

/-- The node of `initStr` in the buffers that it leaves. -/
theorem New.of_initStr (h : s.Sound) {tag : UInt32} (hi : InitStr s tag bs m M) : New { s with mem := M } m where
  self := hi.self
  val v hv := (hi.val v hv).imp id fun ⟨_, hb, _, hlt⟩ => hb ▸ hlt
  mem id hid := by
    obtain ⟨hle, hlt⟩ := hi.mem id hid
    refine ⟨hlt, fun he => ?_, fun he => ?_⟩
    · have := (h.mem id he).1
      omega
    · have : id < s.mem.next := (h.data _ he).1
      omega
  data b hb := (hi.data b hb).imp id fun ⟨_, hb, hlt⟩ => hb ▸ hlt

/-! ### One call -/

/-- What `SetMetaStr(t, a)` leaves of everything else. -/
structure Sets (s s' : Bufs) (t : UInt32) (a : Bytes) (l : List Strike) : Prop where
  sound : s'.Sound
  read : s'.getMetaStr t = some a
  others : ∀ u ≠ t, s'.metaAt u = s.metaAt u
  metas : ∀ m ∈ s.metalist, s.metaAt t ≠ some m → m ∈ s'.metalist
  below : s'.below = s.below
  content : ∀ b, s.Old b → s'.mem.content b = hits l s.mem.content b
  slots : s.slots ≤ s'.slots
  next : s.mem.next ≤ s'.mem.next

theorem getMetaStr_eq (h : s.metaAt t = some m) : s.getMetaStr t = s.mem.readVal m.val := by
  cases hv : m.val with
  | none => simp only [getMetaStr, Mem.readVal, h, hv]
  | some v => simp only [getMetaStr, Mem.readVal, h, hv]

/-- A meta that does not exist gets a value of its own. -/
theorem sets_new (h : s.Sound) (a : Bytes) (hnone : s.metaAt t = none) :
    Sets s (s.setMetaStr t a) t a [] ∧ (s.setMetaStr t a).dyn = s.dyn ∧
      ∃ m, (s.setMetaStr t a).metaAt t = some m ∧ ∀ v, m.val = some v →
        v.buf = .small s.slots ∨ ∃ id, v.buf = .block id ∧ s.mem.next ≤ id := by
  have hinit := initStr_spec s t a
  have heq : s.setMetaStr t a = addMeta { s with mem := (s.initStr t a).2 } (s.initStr t a).1 := by
    unfold setMetaStr
    rw [hnone]
  rw [heq]
  generalize (s.initStr t a).1 = m at hinit ⊢
  generalize (s.initStr t a).2 = M at hinit ⊢
  have hs : Sound { s with mem := M } := h.withSame hinit.next hinit.content
  have hmeta := metaAt_addMeta hs hinit.self
  rw [hinit.tag] at hmeta
  have hsound : (addMeta { s with mem := M } m).Sound := hs.addMeta (.of_initStr h hinit)
  refine ⟨⟨hsound, ?_, hmeta.2, fun y hy _ => ?_, rfl, hinit.content, Nat.le_succ _, hinit.next⟩, rfl, m,
    hmeta.1, fun v hv => ?_⟩
  · rw [getMetaStr_eq hmeta.1]
    exact hinit.read
  · simp only [addMeta]
    split
    · exact List.mem_cons_of_mem _ hy
    · exact List.mem_append_left _ hy
  · rcases hinit.val v hv with hb | ⟨id, hb, hle, -⟩
    · exact .inl hb
    · exact .inr ⟨id, hb, hle⟩

/-- A meta that exists is put into the node's buffer. -/
theorem sets_over (h : s.Sound) (a : Bytes) (hx : s.metaAt t = some x) :
    Sets s (s.setMetaStr t a) t a [s.dyn.strike a] ∧ (s.setMetaStr t a).dyn = (s.dyn.alloc .own a.length s.mem).1 ∧
      (s.setMetaStr t a).metaAt t = some { x with val := some ⟨(s.dyn.alloc .own a.length s.mem).2.2, 0, a.length⟩ } := by
  have ho := overwritten_alloc h a
  have heq : s.setMetaStr t a = setMetaNode { s with
        dyn := (s.dyn.alloc .own a.length s.mem).1
        mem := (s.dyn.alloc .own a.length s.mem).2.1.memcpy (s.dyn.alloc .own a.length s.mem).2.2 a }
      { x with val := some ⟨(s.dyn.alloc .own a.length s.mem).2.2, 0, a.length⟩ } := by
    unfold setMetaStr
    rw [hx]
  rw [heq]
  generalize (s.dyn.alloc .own a.length s.mem).1 = d at ho ⊢
  generalize (s.dyn.alloc .own a.length s.mem).2.1 = M at ho ⊢
  generalize (s.dyn.alloc .own a.length s.mem).2.2 = b at ho ⊢
  obtain ⟨hs, hb⟩ := h.overwritten ho
  obtain ⟨hxmem, hxt, -⟩ := metaAt_eq hx
  have hmeta := metaAt_setMetaNode (m := { x with val := some ⟨b, 0, a.length⟩ }) hs
    (show metaAt { s with dyn := d, mem := M.memcpy b a } t = some x from hx) rfl
  have hx' := hs.nodes x (List.mem_append_left _ hxmem)
  have hsound := sound_setMetaNode (m := { x with val := some ⟨b, 0, a.length⟩ }) hs
    ⟨hx'.self, fun v hv => by cases hv; exact hb, hx'.mem, hx'.data⟩
  refine ⟨⟨hsound, ?_, hmeta.2, fun y hy hne => ?_, rfl, ho.hit, Nat.le_refl _, ho.next⟩, rfl, hmeta.1⟩
  · rw [getMetaStr_eq hmeta.1]
    exact read_memcpy ..
  · refine List.mem_map.mpr ⟨y, hy, if_neg fun he => hne ?_⟩
    rw [hx]
    exact congrArg some (List.inj_on_of_nodup_map h.nodup hxmem hy he.symm)

/-- The strike of one call: there is one if the meta exists. -/
def strikeOf (s : Bufs) (t : UInt32) (a : Bytes) : List Strike := if (s.metaAt t).isSome then [s.dyn.strike a] else []

/-- **One call sets its meta, and strikes the buffers that are there at most once.** -/
theorem sets_setMetaStr (h : s.Sound) (t : UInt32) (a : Bytes) : Sets s (s.setMetaStr t a) t a (s.strikeOf t a) ∧
    (s.setMetaStr t a).dyn = if (s.metaAt t).isSome then (s.dyn.alloc .own a.length s.mem).1 else s.dyn := by
  unfold strikeOf
  cases hx : s.metaAt t with
  | none =>
    obtain ⟨hsets, hdyn, -⟩ := sets_new h a hx
    exact ⟨hsets, hdyn⟩
  | some x =>
    obtain ⟨hsets, hdyn, -⟩ := sets_over h a hx
    exact ⟨hsets, hdyn⟩

theorem struck_strikeOf {k : Strike} (hk : k ∈ s.strikeOf t bs) : k = s.dyn.strike bs := by
  unfold strikeOf at hk
  split at hk
  · exact List.mem_singleton.mp hk
  · exact absurd hk List.not_mem_nil

/-- What is struck is in use. -/
theorem Sound.live_strike (h : s.Sound) {k : Strike} (hk : k ∈ s.strikeOf t bs)
    (hb : k.freed.map Buf.block = some b ∨ k.buf = some b) : (s.mem.content b).isSome := by
  obtain rfl := struck_strikeOf hk
  have hmem : s.dyn.mem.map Buf.block = some b → (s.mem.content b).isSome := by
    intro he
    obtain ⟨id, hid, rfl⟩ := Option.map_eq_some_iff.mp he
    exact (h.mem id hid).2
  unfold DynData.strike at hb
  split at hb
  · rcases hb with hb | hb
    · exact hmem hb
    · cases hb
      exact h.own
  · split at hb
    · next d hdata _ =>
      rcases hb with hb | hb
      · cases hb
      · cases hb
        exact (h.data _ hdata).2
    · rcases hb with hb | hb
      · exact hmem hb
      · cases hb

theorem hits_congr {l : List Strike} {c c' : Buf → Option Bytes} (h : c b = c' b) : hits l c b = hits l c' b := by
  induction l generalizing c c' with
  | nil => exact h
  | cons k l ih =>
    refine ih ?_
    show k.hit c b = k.hit c' b
    rw [Strike.hit, Strike.hit, h]

/-! ### Two calls -/

variable {a : Bytes}

theorem strikes_eq (h : s.Sound) (htu : t ≠ u) (a b : Bytes) :
    s.strikes t a u b = s.strikeOf t a ++ (s.setMetaStr t a).strikeOf u b := by
  obtain ⟨hsets, hdyn⟩ := sets_setMetaStr h t a
  unfold strikes strikeOf
  rw [hsets.others u htu.symm, hdyn]

/-- **A value that was there reads the same after two calls exactly when it comes through.** -/
theorem read_two_iff (h : s.Sound) (htu : t ≠ u) (a b : Bytes) {v : Str} (hv : s.Old v.buf) :
    ((s.setMetaStr t a).setMetaStr u b).mem.read v = s.mem.read v ↔
      Survives (s.strikes t a u b) v fun j => (s.mem.content v.buf).bind fun bs => bs[j]? := by
  obtain ⟨h₁, -⟩ := sets_setMetaStr h t a
  obtain ⟨h₂, -⟩ := sets_setMetaStr h₁.sound u b
  have hv₁ := hv.mono h₁.slots h₁.next
  rw [strikes_eq h htu]
  refine read_hits_iff ?_ fun k hk hb => ?_
  · rw [h₂.content _ hv₁, hits_congr (h₁.content _ hv), hits, hits, hits, List.foldl_append]
  · rcases List.mem_append.mp hk with hk | hk
    · exact h.live_strike hk hb
    · have hsome := h₁.sound.live_strike hk hb
      rw [h₁.content _ hv] at hsome
      by_contra hnone
      rw [hits_of_none (by simpa using hnone)] at hsome
      cases hsome

/-- A buffer that a strike touches has been given away. -/
theorem Sound.struck (h : s.Sound) {k : Strike} (hk : k = s.dyn.strike bs) :
    ∀ b, k.freed.map Buf.block = some b ∨ k.buf = some b → s.Old b := by
  subst hk
  have hmem : ∀ b, s.dyn.mem.map Buf.block = some b → s.Old b := by
    intro b he
    obtain ⟨id, hid, rfl⟩ := Option.map_eq_some_iff.mp he
    exact (h.mem id hid).1
  intro b hb
  unfold DynData.strike at hb
  split at hb
  · rcases hb with hb | hb
    · exact hmem b hb
    · cases hb
      trivial
  · split at hb
    · next d hdata _ =>
      rcases hb with hb | hb
      · cases hb
      · cases hb
        exact (h.data _ hdata).1
    · rcases hb with hb | hb
      · exact hmem b hb
      · cases hb

theorem not_old {b : Buf} (h : b = .small s.slots ∨ ∃ id, b = .block id ∧ s.mem.next ≤ id) : ¬s.Old b := by
  rcases h with rfl | ⟨id, rfl, hle⟩
  · exact Nat.lt_irrefl _
  · exact Nat.not_lt.mpr hle

/-- The first string is read after the second call, unless both metas exist and it does not come through. -/
theorem read_first_iff (h : s.Sound) (htu : t ≠ u) (a b : Bytes) :
    ((s.setMetaStr t a).setMetaStr u b).getMetaStr t = some a ↔ ((s.metaAt t).isSome → (s.metaAt u).isSome →
      Survives [(s.dyn.alloc .own a.length s.mem).1.strike b] ⟨(s.dyn.alloc .own a.length s.mem).2.2, 0, a.length⟩
        fun j => a[j]?) := by
  obtain ⟨h₁, hdyn⟩ := sets_setMetaStr h t a
  obtain ⟨h₂, -⟩ := sets_setMetaStr h₁.sound u b
  have hread := h₁.read
  -- the first meta after both calls is the one after the first call
  obtain ⟨m, hm⟩ : ∃ m, (s.setMetaStr t a).metaAt t = some m := by
    cases hx : s.metaAt t with
    | none => exact ⟨_, (sets_new h a hx).2.2.choose_spec.1⟩
    | some x => exact ⟨_, (sets_over h a hx).2.2⟩
  rw [getMetaStr_eq hm] at hread
  rw [getMetaStr_eq ((h₂.others t htu).trans hm)]
  have hstowed := h₁.sound.nodes m (List.mem_append_left _ (metaAt_eq hm).1)
  cases hv : m.val with
  | none =>
    rw [hv] at hread
    refine ⟨fun _ ht => ?_, fun _ => hread⟩
    obtain ⟨x, hx⟩ := Option.isSome_iff_exists.mp ht
    have hm' := hm.symm.trans (sets_over h a hx).2.2
    cases hm'
    cases hv
  | some v =>
    rw [hv] at hread
    have hold := hstowed.val v hv
    have hiff : ((s.setMetaStr t a).setMetaStr u b).mem.read v = (s.setMetaStr t a).mem.read v ↔
        Survives ((s.setMetaStr t a).strikeOf u b) v fun j => ((s.setMetaStr t a).mem.content v.buf).bind fun bs => bs[j]? :=
      read_hits_iff (h₂.content _ hold) fun k hk hb => h₁.sound.live_strike hk hb
    have hread' : (s.setMetaStr t a).mem.read v = some a := hread
    show ((s.setMetaStr t a).setMetaStr u b).mem.read v = some a ↔ _
    rw [← hread', hiff]
    cases hx : s.metaAt t with
    | none =>
      -- a new meta is in none of the buffers that are struck
      obtain ⟨-, hdyn', m', hm', hnew⟩ := sets_new h a hx
      have hmm : m = m' := Option.some.inj (hm.symm.trans hm')
      subst hmm
      have hfresh : ∀ k ∈ (s.setMetaStr t a).strikeOf u b, k.freed.map Buf.block ≠ some v.buf ∧ k.buf ≠ some v.buf :=
        fun k hk => by
          have hstruck := h.struck (hdyn' ▸ struck_strikeOf hk)
          refine ⟨fun he => ?_, fun he => ?_⟩
          · exact not_old (hnew v hv) (hstruck v.buf (.inl he))
          · exact not_old (hnew v hv) (hstruck v.buf (.inr he))
      refine ⟨fun _ ht => absurd ht (by simp), fun _ => .inr ⟨fun k hk => (hfresh k hk).1, fun i _ y hy => ?_⟩⟩
      rw [lastWrite_none fun k hk => (hfresh k hk).2] at hy
      cases hy
    | some x =>
      obtain ⟨-, hdyn', hm'⟩ := sets_over h a hx
      have hmm : m = { x with val := some ⟨(s.dyn.alloc .own a.length s.mem).2.2, 0, a.length⟩ } :=
        Option.some.inj (hm.symm.trans hm')
      have hvv : v = ⟨(s.dyn.alloc .own a.length s.mem).2.2, 0, a.length⟩ := by
        rw [hmm] at hv
        exact (Option.some.inj hv).symm
      rw [strikeOf, h₁.others u htu.symm, hdyn']
      cases hu : s.metaAt u with
      | none =>
        refine ⟨fun _ _ hsome => absurd hsome (by simp), fun _ => .inr ⟨fun k hk => absurd hk List.not_mem_nil, ?_⟩⟩
        intro i _ y hy
        cases hy
      | some y =>
        have hbytes : ∀ j < v.len, ((s.setMetaStr t a).mem.content v.buf).bind (fun bs => bs[v.off + j]?) =
          a[v.off + j]? := by
          rw [hvv] at hread' ⊢
          exact fun j hj => bytes_of_read hread' j hj
        rw [survives_congr hbytes, hvv]
        simp

/-- The value of a node that was there. -/
theorem readVal_two_iff (h : s.Sound) (htu : t ≠ u) (a b : Bytes) (hm : m ∈ s.metalist ++ s.below) :
    ((s.setMetaStr t a).setMetaStr u b).mem.readVal m.val = s.mem.readVal m.val ↔ ∀ v, m.val = some v →
      Survives (s.strikes t a u b) v fun j => (s.mem.content v.buf).bind fun bs => bs[j]? := by
  cases hv : m.val with
  | none => exact ⟨fun _ _ => nofun, fun _ => rfl⟩
  | some v =>
    have hiff := read_two_iff h htu a b ((h.nodes m hm).val v hv)
    constructor
    · intro hread v' he
      cases he
      exact hiff.mp hread
    · intro hs
      exact hiff.mpr (hs v rfl)

/-- **Two calls leave every other value exactly when nothing is in the way of their strings.** -/
theorem metasKept_iff (h : s.Sound) (htu : t ≠ u) (a b : Bytes) : s.MetasKept t a u b ↔ s.Undisturbed t a u b := by
  obtain ⟨h₁, -⟩ := sets_setMetaStr h t a
  obtain ⟨h₂, -⟩ := sets_setMetaStr h₁.sound u b
  constructor
  · intro hk
    refine ⟨fun m hm => ?_, (read_first_iff h htu a b).mp hk.first⟩
    rcases hm with ⟨hmem, hmt, hmu⟩ | hmem
    · exact (readVal_two_iff h htu a b (List.mem_append_left _ hmem)).mp (hk.metas m hmem hmt hmu).2
    · exact (readVal_two_iff h htu a b (List.mem_append_right _ hmem)).mp (hk.below.2 m hmem)
  · intro hu
    refine ⟨(read_first_iff h htu a b).mpr hu.first, h₂.read, fun m hmem hmt hmu => ⟨?_, ?_⟩, ?_, fun c hmem => ?_⟩
    · refine h₂.metas m (h₁.metas m hmem hmt) ?_
      rwa [h₁.others u htu.symm]
    · exact (readVal_two_iff h htu a b (List.mem_append_left _ hmem)).mpr (hu.others m (.inl ⟨hmem, hmt, hmu⟩))
    · exact h₂.below.trans h₁.below
    · exact (readVal_two_iff h htu a b (List.mem_append_right _ hmem)).mpr (hu.others c (.inr hmem))

/-! ### Every run -/

theorem Sound.release (h : s.Sound) (hm : s.Stowed m) : (s.release m).Sound := by
  have hkeep : ∀ b, (∀ id, m.dyn.mem = some id → b ≠ .block id) → (s.mem.free m.dyn.mem).content b = s.mem.content b :=
    fun b hb => by
      refine if_neg fun he => ?_
      obtain ⟨id, hid, rfl⟩ := Option.map_eq_some_iff.mp he
      exact hb id hid rfl
  refine h.withMem (Nat.le_refl _) ?_ (fun b hb => ?_) fun id hid => ?_
  · rw [hkeep .own fun _ _ => nofun]
    exact h.own
  · rw [hkeep b fun id hid he => (hm.mem id hid).2.2 (he ▸ hb)]
    exact (h.data b hb).2
  · rw [hkeep (.block id) fun id' hid' he => (hm.mem id' hid').2.1 (Buf.block.inj he ▸ hid)]
    exact (h.mem id hid).2

theorem sound_clear (h : s.Sound) : s.clear.Sound := by
  have hrun : ∀ (l : List NodeBuf) (s : Bufs), s.Sound → (∀ m ∈ l, s.Stowed m) → (l.foldl Bufs.release s).Sound := by
    intro l
    induction l with
    | nil => exact fun s h _ => h
    | cons m l ih =>
      intro s h hl
      exact ih _ (h.release (hl m (List.mem_cons_self ..))) fun m' hm' =>
        (hl m' (List.mem_cons_of_mem _ hm')).mono rfl (Nat.le_refl _) (Nat.le_refl _)
  refine hrun _ _ (h.withNodes rfl rfl (Nat.le_refl _) List.nodup_nil h.metas h.inj fun _ hm =>
    absurd hm List.not_mem_nil) ?_
  exact fun m hm => (h.nodes m hm).mono rfl (Nat.le_refl _) (Nat.le_refl _)

/-- A node that an expansion makes: its value is in the buffer of the value that is expanded. -/
theorem new_placeOf {v : Str} (hv : s.Old v.buf) (tag : UInt32) (f : PbField) (pos : ℕ) :
    s.New { self := s.slots, tag := tag, val := placeOf v f pos } := by
  refine ⟨rfl, fun w hw => .inr ?_, nofun, nofun⟩
  simp only [placeOf] at hw
  split at hw
  · cases hw
    exact hv
  · cases hw

theorem sound_expandField {v : Str} (pos : ℕ) (h : s.Sound) (hv : s.Old v.buf) (p : PbField × ℕ) :
    (expandField v (s, pos) p).1.Sound ∧ (expandField v (s, pos) p).1.Old v.buf := by
  have hnew := new_placeOf hv p.1.tag p.1 (pos + p.2)
  unfold expandField
  split
  · exact ⟨h.joins hnew rfl rfl rfl (List.perm_append_singleton ..) rfl rfl, hv.mono (Nat.le_succ _) (Nat.le_refl _)⟩
  · exact ⟨h.addBelow hnew, hv.mono (Nat.le_succ _) (Nat.le_refl _)⟩

theorem sound_expand {v : Str} (h : s.Sound) (hv : s.Old v.buf) : (s.expand v).Sound := by
  have hrun : ∀ (fs : List (PbField × ℕ)) (s : Bufs) (pos : ℕ), s.Sound → s.Old v.buf →
      (fs.foldl (expandField v) (s, pos)).1.Sound := by
    intro fs
    induction fs with
    | nil => exact fun s pos h _ => h
    | cons p fs ih =>
      intro s pos h hv
      obtain ⟨hs, hv'⟩ := sound_expandField pos h hv p
      exact ih _ _ hs hv'
  unfold expand
  cases s.mem.read v with
  | none => exact h
  | some bs =>
    dsimp only
    split
    · exact hrun _ _ _ h hv
    · exact h

theorem sound_expandBelow {v : Str} (h : s.Sound) (hv : s.Old v.buf) : (s.expandBelow v).Sound := by
  have hrun : ∀ (fs : List (PbField × ℕ)) (s : Bufs) (pos : ℕ), s.Sound → s.Old v.buf →
      (fs.foldl (expandFieldBelow v) (s, pos)).1.Sound := by
    intro fs
    induction fs with
    | nil => exact fun s pos h _ => h
    | cons p fs ih =>
      intro s pos h hv
      exact ih _ _ (h.addBelow (new_placeOf hv p.1.tag p.1 (pos + p.2))) (hv.mono (Nat.le_succ _) (Nat.le_refl _))
  unfold expandBelow
  cases s.mem.read v with
  | none => exact h
  | some bs =>
    dsimp only
    split
    · exact hrun _ _ _ h hv
    · exact h

theorem sound_setValueStr (h : s.Sound) (bs : Bytes) : (s.setValueStr bs).Sound := by
  have hc := sound_clear h
  unfold setValueStr
  split
  · exact hc
  · obtain ⟨hs, hb⟩ := hc.overwritten (overwritten_alloc hc bs)
    exact sound_expand hs hb

/-- The node's value is in a new block. -/
theorem Sound.assigned (h : s.Sound) (bs : Bytes) :
    Sound { s with dyn := (s.dyn.assign bs s.mem).1, mem := (s.dyn.assign bs s.mem).2 } := by
  have hnew : ∀ b, s.Old b → Old { s with dyn := (s.dyn.assign bs s.mem).1, mem := (s.dyn.assign bs s.mem).2 } b :=
    fun b hb => hb.mono (Nat.le_refl _) (Nat.le_succ _)
  have hlive : ((s.dyn.assign bs s.mem).2.content (.block s.mem.next)).isSome := by
    show ((if Buf.block s.mem.next = .block s.mem.next then some bs else (s.mem.free s.dyn.mem).content _).isSome : Prop)
    rw [if_pos rfl]
    rfl
  refine ⟨h.nodup, h.metas, h.inj, ?_, fun b hb => ?_, fun id hid => ?_, fun m hm => ?_⟩
  · show ((if Buf.own = .block s.mem.next then some bs else (s.mem.free s.dyn.mem).content .own).isSome : Prop)
    rw [if_neg (by simp), content_free, if_neg (by cases s.dyn.mem <;> simp)]
    exact h.own
  · cases hb
    exact ⟨Nat.lt_succ_self _, hlive⟩
  · cases hid
    exact ⟨Nat.lt_succ_self _, hlive⟩
  · have hm' := h.nodes m hm
    refine ⟨hm'.self, fun v hv => hnew _ (hm'.val v hv), fun id hid => ?_, fun b hb => hnew _ (hm'.data b hb)⟩
    have hlt := (hm'.mem id hid).1
    refine ⟨Nat.lt_succ_of_lt hlt, fun he => ?_, fun he => ?_⟩
    · cases he
      exact Nat.lt_irrefl _ hlt
    · cases he
      exact Nat.lt_irrefl _ hlt

theorem sound_fold (h : s.Sound) (bs : Bytes) : (s.fold bs).Sound :=
  sound_expand ((sound_clear h).assigned bs) (Nat.lt_succ_self _)

theorem sound_setMetaInt (h : s.Sound) (t : UInt32) : (s.setMetaInt t).Sound := by
  unfold setMetaInt
  split
  · exact h.addMeta ⟨rfl, nofun, nofun, nofun⟩
  · next m hm =>
    have hstowed := h.nodes m (List.mem_append_left _ (metaAt_eq hm).1)
    exact sound_setMetaNode h ⟨hstowed.self, nofun, hstowed.mem, hstowed.data⟩

theorem sound_removeMeta (h : s.Sound) (t : UInt32) : (s.removeMeta t).Sound := by
  unfold removeMeta
  split
  · exact h
  · next m hm =>
    have hstowed := h.nodes m (List.mem_append_left _ (metaAt_eq hm).1)
    refine Sound.release (h.withNodes rfl rfl (Nat.le_refl _) ?_ ?_ ?_ fun y hy => ?_)
      (hstowed.mono rfl (Nat.le_refl _) (Nat.le_refl _))
    · exact h.nodup.sublist ((List.eraseP_sublist ..).map _)
    · intro u a ha
      simp only at ha
      split at ha
      · cases ha
      · exact h.metas u a ha
    · intro u w a hu hw
      simp only at hu hw
      split at hu
      · cases hu
      · split at hw
        · cases hw
        · exact h.inj u w a hu hw
    · exact .inl ((List.mem_append.mp hy).elim (fun hy => List.mem_append_left _ (List.mem_of_mem_eraseP hy))
        (List.mem_append_right _))

theorem sound_insertStrLeaf (h : s.Sound) (t : UInt32) (bs : Bytes) : (s.insertStrLeaf t bs).Sound := by
  have hinit := initStr_spec s t bs
  unfold insertStrLeaf
  generalize s.initStr t bs = p at hinit ⊢
  obtain ⟨m, M⟩ := p
  exact (h.withSame hinit.next hinit.content).addBelow (.of_initStr h hinit)

theorem sound_removeBelow (h : s.Sound) (a : ℕ) : (s.removeBelow a).Sound := by
  unfold removeBelow
  split
  · exact h
  · next c hc =>
    have hstowed := h.nodes c (List.mem_append_right _ (List.mem_of_find?_eq_some hc))
    refine Sound.release (h.withNodes rfl rfl (Nat.le_refl _) h.nodup h.metas h.inj fun y hy => ?_)
      (hstowed.mono rfl (Nat.le_refl _) (Nat.le_refl _))
    exact .inl ((List.mem_append.mp hy).elim (List.mem_append_left _)
      fun hy => List.mem_append_right _ (List.mem_of_mem_eraseP hy))

/-- The value of a node below is put into a buffer of that node. -/
theorem sound_inBelow {c : NodeBuf} {d : DynData} (h : Sound { s with mem := M }) (hc : c ∈ s.below)
    (hb : Old { s with mem := M } b) (hdata : d.data = some b)
    (hmem : ∀ id, d.mem = some id → id < M.next ∧ s.dyn.mem ≠ some id ∧ s.dyn.data ≠ some (.block id)) :
    Sound { s with
      mem := M.memcpy b bs
      below := s.below.map fun x => if x.self = c.self then { c with dyn := d, val := some ⟨b, 0, bs.length⟩ } else x } := by
  have hm : Sound { s with mem := M.memcpy b bs } :=
    h.withMem (Nat.le_refl _) (isSome_memcpy h.own b bs) (fun b' hb' => isSome_memcpy (h.data b' hb').2 b bs)
      fun id hid => isSome_memcpy (h.mem id hid).2 b bs
  refine hm.withNodes rfl rfl (Nat.le_refl _) hm.nodup hm.metas hm.inj fun y hy => ?_
  rcases List.mem_append.mp hy with hy | hy
  · exact .inl (List.mem_append_left _ hy)
  · obtain ⟨z, hz, rfl⟩ := List.mem_map.mp hy
    split
    · refine .inr ⟨(h.nodes c (List.mem_append_right _ hc)).self, fun v hv => ?_, hmem, fun b' hb' => ?_⟩
      · cases hv
        exact hb
      · cases hdata.symm.trans hb'
        exact hb
    · exact .inl (List.mem_append_right _ hz)

theorem sound_setBelowStr {c : NodeBuf} (h : s.Sound) (hc : c ∈ s.below) (bs : Bytes) : (s.setBelowStr c bs).Sound := by
  have hstowed := h.nodes c (List.mem_append_right _ hc)
  have hfreed := h.release hstowed
  unfold setBelowStr
  rcases alloc_cases (.small c.self) bs.length c.dyn s.mem with ⟨-, heq⟩ | ⟨-, b, hdata, -, heq⟩ | ⟨-, -, sz, heq⟩
  · rw [heq]
    exact sound_inBelow hfreed hc hstowed.self rfl nofun
  · rw [heq]
    exact sound_inBelow h hc (hstowed.data b hdata) hdata hstowed.mem
  · rw [heq]
    refine sound_inBelow (hfreed.withSame (Nat.le_succ _) fun b hb => if_neg ?_) hc (Nat.lt_succ_self _) rfl fun id hid => ?_
    · rintro rfl
      exact Nat.lt_irrefl _ hb
    · cases hid
      refine ⟨Nat.lt_succ_self _, fun he => ?_, fun he => ?_⟩
      · exact Nat.lt_irrefl _ (h.mem _ he).1
      · exact Nat.lt_irrefl _ (h.data _ he).1

theorem sound_start (bs : Bytes) : Sound { mem := Mem.start bs } :=
  ⟨List.nodup_nil, nofun, nofun, rfl, nofun, nofun, fun _ hm => absurd hm List.not_mem_nil⟩

theorem sound_of_run (h : BufRun s) : s.Sound := by
  induction h with
  | newTree => exact sound_start []
  | inside bs v hv => exact sound_expand (sound_start bs) (by rw [hv]; trivial)
  | setValueStr bs _ ih => exact sound_setValueStr ih bs
  | fold bs _ ih => exact sound_fold ih bs
  | setMetaStr tag bs _ ih => exact (sets_setMetaStr ih tag bs).1.sound
  | setMetaInt tag _ ih => exact sound_setMetaInt ih tag
  | removeMeta tag _ ih => exact sound_removeMeta ih tag
  | insertStrLeaf tag bs _ ih => exact sound_insertStrLeaf ih tag bs
  | removeBelow a _ ih => exact sound_removeBelow ih a
  | expandBelow _ hc hv ih => exact sound_expandBelow ih ((ih.nodes _ (List.mem_append_right _ hc)).val _ hv)
  | setBelowStr bs _ hc ih => exact sound_setBelowStr ih hc bs

end Bufs

/-- **In every run, two metas that are set one after the other leave every other value, and one another, exactly when no
value is in the buffers that are freed or written.** -/
theorem metasKept_of_run {s : Bufs} (h : BufRun s) {t u : UInt32} (htu : t ≠ u) (a b : Bytes) :
    s.MetasKept t a u b ↔ s.Undisturbed t a u b :=
  Bufs.metasKept_iff (Bufs.sound_of_run h) htu a b

/-- Two new metas of a new tree. -/
theorem metasKept_of_run_new : (2 : UInt32) ≠ 3 ∧
    Bufs.MetasKept { mem := Mem.start [] } 2 [65] 3 [66] := by
  refine ⟨by decide, (metasKept_of_run .newTree (by decide) [65] [66]).mpr ⟨fun m hm => ?_, fun ht => nomatch ht⟩⟩
  rcases hm with ⟨hm, -⟩ | hm
  · exact absurd hm List.not_mem_nil
  · exact absurd hm List.not_mem_nil

/-- Two metas that exist are put into the same 64 bytes of the node: the second string is read for the first meta. -/
theorem not_metasKept_of_run : ∃ s : Bufs, BufRun s ∧ ((s.setMetaStr 2 [67]).setMetaStr 3 [68]).getMetaStr 2 = some [68] ∧
    ¬s.MetasKept 2 [67] 3 [68] := by
  refine ⟨_, .setMetaStr 3 [66] (.setMetaStr 2 [65] .newTree), by decide, fun h => ?_⟩
  have hread := h.first
  revert hread
  decide

end KnvProto.Buffers
