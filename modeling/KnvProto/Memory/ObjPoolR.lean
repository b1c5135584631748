import KnvProto.Library.Threaded
import Mathlib.Data.List.Range
import Mathlib.Logic.Function.Basic
import Mathlib.Logic.Relation

/-!
# The pool that several threads share

`ObjPoolR`: a stack of free objects whose head is exchanged by compare-and-swap.

## The model

A step is one access to memory that other threads can see: to `obj_freelist`, or to
the `next` of an object. Where a thread stands between two steps of its call is its
`Pc`, with what it has read so far. An object is its address, and `new` gives a new
one. Who has been given which object is kept in `held`, which the code does not have;
a thread holds what it deletes until its compare-and-swap has put it on the list.

The compare-and-swap of `New` compares the head only. A thread that has read the head
and its successor can be overtaken by others that take that object, change what is
below it and put it back: the head is the same, and its successor is not
(`not_held_once`). `held_once_of_steps` is what holds when no thread is overtaken so.
-/

namespace KnvProto.Memory

open Linking

/-- Where a thread is in a call. -/
inductive Pc where
  /-- In no call. -/
  | idle
  /-- `New`: about to read `obj_freelist`. -/
  | newRead
  /-- `New`: `o` has been read, and is not `NULL`. -/
  | newNext (o : ℕ)
  /-- `New`: `o` and its `next` have been read. -/
  | newSwap (o : ℕ) (n : Option ℕ)
  /-- `New`: the list is empty. -/
  | newMake
  /-- `New`: at `out`, with the object that is returned. -/
  | newOut (o : ℕ)
  /-- `Delete`: about to read `obj_freelist`. -/
  | delRead (obj : ℕ)
  /-- `Delete`: `o` has been read. -/
  | delNext (obj : ℕ) (o : Option ℕ)
  /-- `Delete`: `o` has been read, and is the `next` of the object. -/
  | delSwap (obj : ℕ) (o : Option ℕ)
  deriving DecidableEq

/-- What a thread does next. -/
inductive Move where
  /-- It calls `New`. -/
  | callNew
  /-- It calls `Delete`. -/
  | callDelete (obj : ℕ)
  /-- It takes the next step of its call; `newOk` is whether `new` succeeds. -/
  | go (newOk : Bool)

variable {τ : Type*} [DecidableEq τ]

/-- `ObjPoolR`, its objects, and its threads. -/
structure ObjPoolR (τ : Type*) where
  /-- `obj_freelist`. -/
  objFreelist : Option ℕ := none
  /-- `next` of an object. -/
  next : ℕ → Option ℕ := fun _ => none
  /-- The next address that `new` gives. -/
  fresh : ℕ := 0
  /-- Where the threads are. -/
  pc : τ → Pc := fun _ => .idle
  /-- Who holds which object. -/
  held : List (τ × ℕ) := []

namespace ObjPoolR

/-- A thread goes to another place. -/
def goto (t : τ) (c : Pc) (s : ObjPoolR τ) : ObjPoolR τ := { s with pc := Function.update s.pc t c }

/-- The next step of a call. -/
def advance (t : τ) (newOk : Bool) (s : ObjPoolR τ) : Pc → ObjPoolR τ
  | .idle => s
  -- o = obj_freelist; while(o)
  | .newRead => match s.objFreelist with
    | some o => s.goto t (.newNext o)
    | none => s.goto t .newMake
  -- n = o->next
  | .newNext o => s.goto t (.newSwap o (s.next o))
  -- CAS(&obj_freelist, o, n)
  | .newSwap o n =>
    if s.objFreelist = some o then { s with objFreelist := n, held := (t, o) :: s.held }.goto t (.newOut o)
    else s.goto t .newRead
  -- o = new obj_type()
  | .newMake =>
    if newOk then { s with fresh := s.fresh + 1, held := (t, s.fresh) :: s.held }.goto t (.newOut s.fresh)
    else s.goto t .idle
  -- o->next = NULL
  | .newOut o => { s with next := Function.update s.next o none }.goto t .idle
  -- o = obj_freelist
  | .delRead obj => s.goto t (.delNext obj s.objFreelist)
  -- obj->next = o
  | .delNext obj o => { s with next := Function.update s.next obj o }.goto t (.delSwap obj o)
  -- CAS(&obj_freelist, o, obj)
  | .delSwap obj o =>
    if s.objFreelist = o then { s with objFreelist := some obj, held := s.held.erase (t, obj) }.goto t .idle
    else s.goto t (.delRead obj)

/-- A step of a thread. It begins a call when it is in none, and deletes only what it holds. -/
def step (t : τ) (m : Move) (s : ObjPoolR τ) : Option (ObjPoolR τ) :=
  match m with
  | .callNew => if s.pc t = .idle then some (s.goto t .newRead) else none
  | .callDelete obj => if s.pc t = .idle ∧ (t, obj) ∈ s.held then some (s.goto t (.delRead obj)) else none
  | .go newOk => some (s.advance t newOk (s.pc t))

/-- One step after the other, by any threads, each as `P` allows. -/
def Steps (P : ObjPoolR τ → τ → Prop) (s s' : ObjPoolR τ) : Prop := ∃ t m, P s t ∧ s.step t m = some s'

/-- The steps of a list of threads, if `P` allows them all. -/
def stepAll (P : ObjPoolR τ → τ → Prop) [∀ s t, Decidable (P s t)] : List (τ × Move) → ObjPoolR τ → Option (ObjPoolR τ)
  | [], s => some s
  | (t, m) :: ms, s => if P s t then (s.step t m).bind (stepAll P ms) else none

/-! ### Objects -/

/-- The condition on a step: a thread at the compare-and-swap of `New` that finds the head that it has read finds its
successor, too. -/
def NotOvertaken (s : ObjPoolR τ) (t : τ) : Prop :=
  ∀ o n, s.pc t = .newSwap o n → s.objFreelist = some o → s.next o = n

instance (s : ObjPoolR τ) (t : τ) : Decidable (NotOvertaken s t) :=
  match h : s.pc t with
  | .newSwap o n => decidable_of_iff (s.objFreelist = some o → s.next o = n)
      ⟨fun hok o' n' hpc => by cases h.symm.trans hpc; exact hok, fun hok => hok o n h⟩
  | .idle | .newRead | .newNext _ | .newMake | .newOut _ | .delRead _ | .delNext _ _ | .delSwap _ _ =>
    .isTrue fun _ _ hpc => nomatch h.symm.trans hpc

/-- Every object is held or on the free list, exactly once. -/
def HeldOnce (s : ObjPoolR τ) : Prop :=
  ∃ l, Threaded s.next s.objFreelist l ∧ (l ++ s.held.map Prod.snd).Perm (List.range s.fresh)

/-- What a thread has done in a call so far. -/
def PcOk (s : ObjPoolR τ) (t : τ) : Prop := match s.pc t with
  | .newOut o => (t, o) ∈ s.held
  | .delRead obj => (t, obj) ∈ s.held
  | .delNext obj _ => (t, obj) ∈ s.held
  | .delSwap obj o => (t, obj) ∈ s.held ∧ s.next obj = o
  | _ => True

/-- What holds in every state of a run. -/
structure Invariant (s : ObjPoolR τ) : Prop where
  once : HeldOnce s
  threads : ∀ t, PcOk s t

omit [DecidableEq τ] in
/-- No object is held twice. -/
theorem HeldOnce.nodup {s : ObjPoolR τ} (h : HeldOnce s) : (s.held.map Prod.snd).Nodup := by
  obtain ⟨l, -, hp⟩ := h
  exact (List.nodup_append.mp (hp.nodup_iff.mpr List.nodup_range)).2.1

omit [DecidableEq τ] in
/-- Who holds an object is the only one. -/
theorem HeldOnce.holder {s : ObjPoolR τ} (h : HeldOnce s) {t t' : τ} {o : ℕ} (ht : (t, o) ∈ s.held)
    (ht' : (t', o) ∈ s.held) : t = t' :=
  congrArg Prod.fst (List.inj_on_of_nodup_map h.nodup ht ht' rfl)

omit [DecidableEq τ] in
/-- What is held is not on the free list. -/
theorem not_mem_of_held {s : ObjPoolR τ} {l : List ℕ} (hp : (l ++ s.held.map Prod.snd).Perm (List.range s.fresh)) {t : τ}
    {o : ℕ} (ht : (t, o) ∈ s.held) : o ∉ l := by
  intro hl
  have hnd := List.nodup_append.mp (hp.nodup_iff.mpr List.nodup_range)
  exact hnd.2.2 o hl o (List.mem_map.mpr ⟨_, ht, rfl⟩) rfl

omit [DecidableEq τ] in
/-- What the other threads have done stays true if what they hold is left alone. -/
theorem Invariant.frame {s s' : ObjPoolR τ} (h : Invariant s) (t : τ) (honce : HeldOnce s')
    (hpc : ∀ t', t' ≠ t → s'.pc t' = s.pc t') (hheld : ∀ t', t' ≠ t → ∀ o, (t', o) ∈ s.held → (t', o) ∈ s'.held)
    (hnext : ∀ t', t' ≠ t → ∀ o, (t', o) ∈ s.held → s'.next o = s.next o) (ht : PcOk s' t) : Invariant s' := by
  refine ⟨honce, fun t' => ?_⟩
  by_cases htt : t' = t
  · exact htt ▸ ht
  have hold := h.threads t'
  have hheld' := hheld t' htt
  have hnext' := hnext t' htt
  unfold PcOk at hold ⊢
  rw [hpc t' htt]
  cases hp : s.pc t' with
  | newOut o =>
    rw [hp] at hold
    exact hheld' o hold
  | delRead obj =>
    rw [hp] at hold
    exact hheld' obj hold
  | delNext obj o =>
    rw [hp] at hold
    exact hheld' obj hold
  | delSwap obj o =>
    rw [hp] at hold
    exact ⟨hheld' obj hold.1, (hnext' obj hold.1).trans hold.2⟩
  | _ => trivial

/-- A step that only moves its thread on. -/
theorem Invariant.goto {s : ObjPoolR τ} (h : Invariant s) {t : τ} {c : Pc} (ht : PcOk (s.goto t c) t) :
    Invariant (s.goto t c) :=
  h.frame t h.once (fun _ htt => Function.update_of_ne htt ..) (fun _ _ _ ho => ho) (fun _ _ _ _ => rfl) ht

theorem pc_goto (s : ObjPoolR τ) (t : τ) (c : Pc) : (s.goto t c).pc t = c := Function.update_self ..

omit [DecidableEq τ] in
/-- What is held by others is another object. -/
theorem ne_of_held {s : ObjPoolR τ} (h : HeldOnce s) {t t' : τ} (htt : t' ≠ t) {o o' : ℕ} (ho : (t, o) ∈ s.held)
    (ho' : (t', o') ∈ s.held) : o' ≠ o := by
  rintro rfl
  exact htt (h.holder ho' ho)

/-- A held object may be given any `next`. -/
theorem heldOnce_write {s : ObjPoolR τ} (h : HeldOnce s) {t : τ} {o : ℕ} (ho : (t, o) ∈ s.held) (n : Option ℕ) (c : Pc) :
    HeldOnce ({ s with next := Function.update s.next o n }.goto t c) := by
  obtain ⟨l, hl, hp⟩ := h
  have hnot := not_mem_of_held hp ho
  refine ⟨l, hl.congr fun a ha => Function.update_of_ne ?_ .., hp⟩
  rintro rfl
  exact hnot ha

/-- **A step keeps every object held or free, exactly once**, if its thread is not overtaken. -/
theorem invariant_advance {s : ObjPoolR τ} {t : τ} (h : Invariant s) (hno : NotOvertaken s t) (newOk : Bool) :
    Invariant (s.advance t newOk (s.pc t)) := by
  have hok := h.threads t
  cases hp : s.pc t with
  | idle => exact h
  | newRead =>
    rw [advance]
    split <;> exact h.goto (by rw [PcOk, pc_goto]; trivial)
  | newNext o => exact h.goto (by rw [PcOk, pc_goto]; trivial)
  | newSwap o n =>
    rw [advance]
    split
    swap
    · exact h.goto (by rw [PcOk, pc_goto]; trivial)
    next hhead =>
    obtain ⟨l, hl, hperm⟩ := h.once
    rw [hhead] at hl
    obtain ⟨l', rfl, hl'⟩ := hl.of_some
    rw [hno o n hp hhead] at hl'
    refine h.frame t ⟨l', hl', ?_⟩ (fun _ htt => Function.update_of_ne htt ..)
      (fun _ _ _ ho => List.mem_cons_of_mem _ ho) (fun _ _ _ _ => rfl) ?_
    · exact List.perm_middle.trans hperm
    · rw [PcOk, pc_goto]
      exact List.mem_cons_self ..
  | newMake =>
    rw [advance]
    split
    swap
    · exact h.goto (by rw [PcOk, pc_goto]; trivial)
    obtain ⟨l, hl, hperm⟩ := h.once
    refine h.frame t ⟨l, hl, ?_⟩ (fun _ htt => Function.update_of_ne htt ..)
      (fun _ _ _ ho => List.mem_cons_of_mem _ ho) (fun _ _ _ _ => rfl) ?_
    · show (l ++ s.fresh :: s.held.map Prod.snd).Perm (List.range (s.fresh + 1))
      rw [List.range_succ]
      exact List.perm_middle.trans ((hperm.cons s.fresh).trans (List.perm_append_singleton ..).symm)
    · rw [PcOk, pc_goto]
      exact List.mem_cons_self ..
  | newOut o =>
    rw [PcOk, hp] at hok
    refine h.frame t (heldOnce_write h.once hok none .idle) (fun _ htt => Function.update_of_ne htt ..)
      (fun _ _ _ ho => ho) (fun t' htt o' ho' => Function.update_of_ne (ne_of_held h.once htt hok ho') ..) ?_
    rw [PcOk, advance, pc_goto]
    trivial
  | delRead obj =>
    rw [PcOk, hp] at hok
    exact h.goto (by rw [PcOk, pc_goto]; exact hok)
  | delNext obj o =>
    rw [PcOk, hp] at hok
    refine h.frame t (heldOnce_write h.once hok o (.delSwap obj o)) (fun _ htt => Function.update_of_ne htt ..)
      (fun _ _ _ ho => ho) (fun t' htt o' ho' => Function.update_of_ne (ne_of_held h.once htt hok ho') ..) ?_
    rw [PcOk, advance, pc_goto]
    exact ⟨hok, Function.update_self ..⟩
  | delSwap obj o =>
    rw [PcOk, hp] at hok
    obtain ⟨hheld, hnext⟩ := hok
    rw [advance]
    split
    swap
    · exact h.goto (by rw [PcOk, pc_goto]; exact hheld)
    next hhead =>
    obtain ⟨l, hl, hperm⟩ := h.once
    have hback : (s.held.map Prod.snd).Perm (obj :: (s.held.erase (t, obj)).map Prod.snd) :=
      (List.perm_cons_erase hheld).map Prod.snd
    refine h.frame t ⟨obj :: l, .cons ?_, ?_⟩ (fun _ htt => Function.update_of_ne htt ..)
      (fun t' htt o' ho' => ?_) (fun _ _ _ _ => rfl) (by rw [PcOk, pc_goto]; trivial)
    · show Threaded s.next (s.next obj) l
      rw [hnext, ← hhead]
      exact hl
    · exact (List.perm_middle.symm.trans ((hback.symm.append_left l))).trans hperm
    · refine (List.mem_erase_of_ne fun heq => htt ?_).mpr ho'
      exact congrArg Prod.fst heq

/-- A step keeps the invariant, whatever it does. -/
theorem invariant_step {s s' : ObjPoolR τ} {t : τ} {m : Move} (h : Invariant s) (hno : NotOvertaken s t)
    (hstep : s.step t m = some s') : Invariant s' := by
  cases m with
  | callNew =>
    rw [step] at hstep
    split at hstep
    · cases hstep
      exact h.goto (by rw [PcOk, pc_goto]; trivial)
    · cases hstep
  | callDelete obj =>
    rw [step] at hstep
    split at hstep
    · next hcond =>
      cases hstep
      exact h.goto (by rw [PcOk, pc_goto]; exact hcond.2)
    · cases hstep
  | go newOk =>
    cases hstep
    exact invariant_advance h hno newOk

/-- **In every state of every run** of any number of threads, none of which is overtaken at the compare-and-swap of
`New`, no object is held by two callers or twice by one, and every object is either held or on the free list, exactly
once. -/
theorem held_once_of_steps {s : ObjPoolR τ} (h : Relation.ReflTransGen (Steps NotOvertaken) {} s) :
    (∀ t t' o, (t, o) ∈ s.held → (t', o) ∈ s.held → t = t') ∧ (s.held.map Prod.snd).Nodup ∧
      ∃ l, Threaded s.next s.objFreelist l ∧ (l ++ s.held.map Prod.snd).Perm (List.range s.fresh) := by
  have hinv : Invariant s := by
    induction h with
    | refl => exact ⟨⟨[], .nil, List.Perm.refl _⟩, fun _ => trivial⟩
    | tail _ hstep ih =>
      obtain ⟨t, m, hno, hstep⟩ := hstep
      exact invariant_step ih hno hstep
  exact ⟨fun _ _ _ ht ht' => hinv.once.holder ht ht', hinv.once.nodup, hinv.once⟩

/-- A thread that is overtaken breaks it at once: the condition is exact. -/
theorem not_heldOnce_of_overtaken {s : ObjPoolR τ} {t : τ} {o : ℕ} {n : Option ℕ} (h : HeldOnce s)
    (hpc : s.pc t = .newSwap o n) (hhead : s.objFreelist = some o) (hne : s.next o ≠ n) (newOk : Bool) :
    ¬HeldOnce (s.advance t newOk (s.pc t)) := by
  rw [hpc, advance, if_pos hhead]
  rintro ⟨l', hl', hperm'⟩
  obtain ⟨l, hl, hperm⟩ := h
  rw [hhead] at hl
  obtain ⟨rest, rfl, hrest⟩ := hl.of_some
  have hsame : (o :: (l' ++ s.held.map Prod.snd)).Perm (o :: (rest ++ s.held.map Prod.snd)) :=
    (List.perm_middle.symm.trans hperm').trans hperm.symm
  have hcells : l'.Perm rest := (List.perm_append_right_iff _).mp hsame.cons_inv
  exact hne (hrest.head_eq hl' hcells).symm

theorem reached_of_stepAll {P : ObjPoolR τ → τ → Prop} [∀ s t, Decidable (P s t)] :
    ∀ {ms : List (τ × Move)} {s s' : ObjPoolR τ}, stepAll P ms s = some s' → Relation.ReflTransGen (Steps P) s s' := by
  intro ms
  induction ms with
  | nil =>
    intro s s' h
    cases h
    exact .refl
  | cons m ms ih =>
    intro s s' h
    obtain ⟨t, m⟩ := m
    rw [stepAll] at h
    split at h
    · next hP =>
      obtain ⟨u, hu, h⟩ := Option.bind_eq_some_iff.mp h
      exact .head ⟨t, m, hP, hu⟩ (ih h)
    · cases h

/-- A call of `New` that finds the list empty. -/
def makes (t : Bool) : List (Bool × Move) := (t, .callNew) :: List.replicate 3 (t, .go true)

/-- A call of `New` that finds an object. -/
def takes (t : Bool) : List (Bool × Move) := (t, .callNew) :: List.replicate 4 (t, .go true)

/-- A call of `Delete`. -/
def gives (t : Bool) (obj : ℕ) : List (Bool × Move) := (t, .callDelete obj) :: List.replicate 3 (t, .go true)

/-- One thread is about to take the first of two free objects; another takes both, and gives the first one back. -/
def overtake : List (Bool × Move) :=
  makes true ++ makes true ++ gives true 1 ++ gives true 0 ++ (false, .callNew) :: List.replicate 2 (false, .go true) ++
    takes true ++ takes true ++ gives true 0 ++ List.replicate 2 (false, .go true) ++ takes false

/-- Without the condition an object is handed out to two callers. -/
theorem not_held_once : ¬∀ s : ObjPoolR Bool, Relation.ReflTransGen (Steps fun _ _ => True) {} s →
    ∀ t t' o, (t, o) ∈ s.held → (t', o) ∈ s.held → t = t' := by
  intro h
  have hend : (stepAll (fun _ _ => True) overtake ({} : ObjPoolR Bool)).map (·.held) =
      some [(false, 1), (false, 0), (true, 1)] := by decide
  obtain ⟨s, hs, hheld⟩ := Option.map_eq_some_iff.mp hend
  have hsame := h s (reached_of_stepAll hs) false true 1
  rw [hheld] at hsame
  exact Bool.false_ne_true (hsame (by decide) (by decide))

/-- One thread gives an object back, and the other one takes it. -/
theorem held_once_of_steps_passed : ∃ s : ObjPoolR Bool, Relation.ReflTransGen (Steps NotOvertaken) {} s ∧
    s.held = [(false, 1), (true, 0)] ∧ (s.held.map Prod.snd).Nodup := by
  have hend : (stepAll NotOvertaken (makes true ++ makes true ++ gives true 1 ++ takes false)
      ({} : ObjPoolR Bool)).map (·.held) = some [(false, 1), (true, 0)] := by decide
  obtain ⟨s, hs, hheld⟩ := Option.map_eq_some_iff.mp hend
  exact ⟨s, reached_of_stepAll hs, hheld, (held_once_of_steps (reached_of_stepAll hs)).2.1⟩

end ObjPoolR

end KnvProto.Memory
