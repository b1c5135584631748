import KnvProto.Library.Ring
import Mathlib.Logic.Function.Basic

/-!
# The lists of a pool

`ObjPool`: objects that are linked in lists, or stand alone, or are kept in the free list until they
are handed out again.

## The model

An object is its address, a number, and its `next` and `prev` are functions of the address. `first`, which the
functions take by reference, is a variable that lies somewhere: the variables are numbered by `ι`, and `first` is
what they hold. Whether `new` succeeds is told by the caller. A pointer that is `NULL` is not followed: then a
function has no result. A loop is given the number of turns that it may take, and has no result when they are
not enough.

`ReleaseObject` is a parameter. The pool asks of it that it changes neither `prev` nor `next`; here it may
change what else is in the object.

`Store` is what is meant: a list for each variable, the objects that stand alone and the free ones. `stored_of_ops`
says that the memory is one of the store, after any operations.
-/

namespace KnvProto.Memory

open Linking

/-! ### The source -/

/-- `ObjPool<obj_type>`, the objects that it has made, and the variables that point to lists of them. -/
structure PoolMem (ι δ : Type*) where
  /-- `obj_freelist`. -/
  objFreelist : Option ℕ := none
  /-- `next` of an object. -/
  next : ℕ → Option ℕ := fun _ => none
  /-- `prev` of an object. -/
  prev : ℕ → Option ℕ := fun _ => none
  /-- What else is in an object. -/
  data : ℕ → δ
  /-- What a variable `first` holds. -/
  first : ι → Option ℕ := fun _ => none
  /-- The next address that `new` gives. -/
  fresh : ℕ := 0

namespace PoolMem

variable {ι δ : Type*}

/-- `o->next = v`. -/
def setNext (o : ℕ) (v : Option ℕ) (m : PoolMem ι δ) : PoolMem ι δ := { m with next := Function.update m.next o v }

/-- `o->prev = v`. -/
def setPrev (o : ℕ) (v : Option ℕ) (m : PoolMem ι δ) : PoolMem ι δ := { m with prev := Function.update m.prev o v }

@[simp] theorem first_setNext (o : ℕ) (v : Option ℕ) (m : PoolMem ι δ) : (m.setNext o v).first = m.first := rfl

@[simp] theorem prev_setNext (o : ℕ) (v : Option ℕ) (m : PoolMem ι δ) : (m.setNext o v).prev = m.prev := rfl

@[simp] theorem first_setPrev (o : ℕ) (v : Option ℕ) (m : PoolMem ι δ) : (m.setPrev o v).first = m.first := rfl

@[simp] theorem next_setPrev (o : ℕ) (v : Option ℕ) (m : PoolMem ι δ) : (m.setPrev o v).next = m.next := rfl

/-- How `New` and `NewFront` begin: with the first free object, or a new one. -/
def take (newOk : Bool) (m : PoolMem ι δ) : Option ℕ × PoolMem ι δ :=
  match m.objFreelist with
  | some o => (some o, { m with objFreelist := m.next o })
  | none => if newOk then (some m.fresh, { m with fresh := m.fresh + 1 }) else (none, m)

/-- `New()`. -/
def new (newOk : Bool) (m : PoolMem ι δ) : Option ℕ × PoolMem ι δ :=
  match m.take newOk with
  | (some o, m) => (some o, (m.setNext o none).setPrev o (some o))
  | (none, m) => (none, m)

/-- How `Delete` puts an object to the free list. -/
def recycle (obj : ℕ) (m : PoolMem ι δ) : PoolMem ι δ :=
  { m.setNext obj m.objFreelist with objFreelist := some obj }

/-- `Delete(obj)`. -/
def delete (releaseObject : ℕ → PoolMem ι δ → Option (PoolMem ι δ)) (obj : ℕ) (m : PoolMem ι δ) : Option (PoolMem ι δ) :=
  (releaseObject obj m).map (recycle obj)

/-- `AddToFreeList(obj)`. -/
def addToFreeList (obj : ℕ) (m : PoolMem ι δ) : Option (PoolMem ι δ) :=
  (m.prev obj).map fun lst => { m.setNext lst m.objFreelist with objFreelist := some obj }

/-- The loop of `DeleteAll`. -/
def deleteAllLoop (releaseObject : ℕ → PoolMem ι δ → Option (PoolMem ι δ)) :
    ℕ → Option ℕ → PoolMem ι δ → Option (PoolMem ι δ)
  | 0, _, _ => none
  | _ + 1, none, m => some m
  | turns + 1, some o, m => (releaseObject o m).bind fun m => deleteAllLoop releaseObject turns (m.next o) m

variable [DecidableEq ι]

/-- `first = v`. -/
def setFirst (i : ι) (v : Option ℕ) (m : PoolMem ι δ) : PoolMem ι δ := { m with first := Function.update m.first i v }

/-- What `New(first)` does with its object. -/
def putLast (i : ι) (o : ℕ) (m : PoolMem ι δ) : Option (PoolMem ι δ) :=
  let m := m.setNext o none
  match m.first i with
  | some f => (m.prev f).map fun lst => ((m.setNext lst (some o)).setPrev o (some lst)).setPrev f (some o)
  | none => some ((m.setFirst i (some o)).setPrev o (some o))

/-- What `NewFront(first)` does with its object. -/
def putFirst (i : ι) (o : ℕ) (m : PoolMem ι δ) : PoolMem ι δ :=
  let m := m.setNext o (m.first i)
  let m := match m.first i with
    | some f => (m.setPrev o (m.prev f)).setPrev f (some o)
    | none => m.setPrev o (some o)
  m.setFirst i (some o)

/-- `New(first)`. -/
def newLast (newOk : Bool) (i : ι) (m : PoolMem ι δ) : Option (Option ℕ × PoolMem ι δ) :=
  match m.take newOk with
  | (some o, m) => (m.putLast i o).map fun m => (some o, m)
  | (none, m) => some (none, m)

/-- `NewFront(first)`. -/
def newFront (newOk : Bool) (i : ι) (m : PoolMem ι δ) : Option ℕ × PoolMem ι δ :=
  match m.take newOk with
  | (some o, m) => (some o, m.putFirst i o)
  | (none, m) => (none, m)

/-- How `Delete(first, obj)` and `Detach(first, obj)` take an object out of its list. -/
def unlink (i : ι) (obj : ℕ) (m : PoolMem ι δ) : Option (PoolMem ι δ) :=
  if m.first i = some obj then
    let m := match m.next obj with
      -- new first
      | some n => m.setPrev n (m.prev obj)
      | none => m
    some (m.setFirst i (m.next obj))
  else
    (m.prev obj).bind fun p =>
      let n := m.next obj
      let m := m.setNext p n
      match n with
      | some n => some (m.setPrev n (some p))
      -- obj is the last
      | none => (m.first i).map fun f => m.setPrev f (some p)

/-- `Detach(first, obj)`. -/
def detach (i : ι) (obj : ℕ) (m : PoolMem ι δ) : Option (PoolMem ι δ) :=
  (m.unlink i obj).map fun m => (m.setNext obj none).setPrev obj none

/-- `Delete(first, obj)`. -/
def deleteFrom (releaseObject : ℕ → PoolMem ι δ → Option (PoolMem ι δ)) (i : ι) (obj : ℕ) (m : PoolMem ι δ) :
    Option (PoolMem ι δ) :=
  (m.unlink i obj).bind fun m => (releaseObject obj m).map (recycle obj)

/-- `DeleteAll(first)`. -/
def deleteAll (releaseObject : ℕ → PoolMem ι δ → Option (PoolMem ι δ)) (turns : ℕ) (i : ι) (m : PoolMem ι δ) :
    Option (PoolMem ι δ) :=
  (deleteAllLoop releaseObject turns (m.first i) m).bind fun m =>
    (m.first i).bind fun f => (m.addToFreeList f).map (setFirst i none)

end PoolMem

/-! ### What is meant -/

/-- The objects of a pool: those of each list, those that stand alone, and the free ones. -/
structure Store (ι : Type*) where
  /-- The lists. -/
  lists : ι → List ℕ := fun _ => []
  /-- The objects that stand alone. -/
  alone : List ℕ := []
  /-- The free objects. -/
  free : List ℕ := []
  /-- How many have been made. -/
  fresh : ℕ := 0

namespace Store

variable {ι : Type*} [DecidableEq ι]

/-- Another list for a variable, and other objects that stand alone. -/
def relist (i : ι) (l alone : List ℕ) (S : Store ι) : Store ι :=
  { S with lists := Function.update S.lists i l, alone := alone }

/-- Other objects that stand alone, and other free ones. -/
def reloose (alone free : List ℕ) (S : Store ι) : Store ι := { S with alone := alone, free := free }

/-- An object is taken from the free ones, or made. -/
def take (newOk : Bool) (S : Store ι) : Option ℕ × Store ι :=
  match S.free with
  | o :: rest => (some o, S.reloose (o :: S.alone) rest)
  | [] => if newOk then (some S.fresh, { S with alone := S.fresh :: S.alone, fresh := S.fresh + 1 }) else (none, S)

omit [DecidableEq ι] in
/-- What an object that is taken changes. -/
theorem take_some {newOk : Bool} {o : ℕ} {S S' : Store ι} (h : S.take newOk = (some o, S')) :
    S'.lists = S.lists ∧ S'.alone = o :: S.alone := by
  unfold take at h
  split at h
  · cases h
    exact ⟨rfl, rfl⟩
  · split at h
    · cases h
      exact ⟨rfl, rfl⟩
    · cases h

@[simp] theorem lists_relist_self (i : ι) (l alone : List ℕ) (S : Store ι) : (S.relist i l alone).lists i = l :=
  Function.update_self ..

theorem lists_relist_of_ne {i j : ι} (h : j ≠ i) (l alone : List ℕ) (S : Store ι) :
    (S.relist i l alone).lists j = S.lists j := Function.update_of_ne h ..

@[simp] theorem alone_relist (i : ι) (l alone : List ℕ) (S : Store ι) : (S.relist i l alone).alone = alone := rfl

@[simp] theorem free_relist (i : ι) (l alone : List ℕ) (S : Store ι) : (S.relist i l alone).free = S.free := rfl

end Store

/-- The memory is one of a store: the variables lead to the lists, each of which is linked both ways, the free list is
linked, and every object that has been made is in one place, once. -/
structure Stored {ι δ : Type*} (m : PoolMem ι δ) (heads : ι → Option ℕ) (S : Store ι) : Prop where
  /-- Each list is a chain by `next` that ends, each `prev` is the object before, and that of the first one is the
  last one. -/
  ring : ∀ i, Ring m.next m.prev (heads i) (S.lists i)
  /-- The free list is a chain by `next` that ends. -/
  free : Threaded m.next m.objFreelist S.free
  /-- No object is in two lists. -/
  apart : ∀ i j o, o ∈ S.lists i → o ∈ S.lists j → i = j
  /-- No object stands alone twice or is free twice, or both. -/
  loose : (S.alone ++ S.free).Nodup
  /-- No object of a list stands alone or is free. -/
  listed : ∀ i, ∀ o ∈ S.lists i, o ∉ S.alone ++ S.free
  /-- As many objects have been made as the store knows. -/
  fresh : m.fresh = S.fresh
  /-- None of them is lost. -/
  known : ∀ o, o < S.fresh ↔ (∃ i, o ∈ S.lists i) ∨ o ∈ S.alone ++ S.free

namespace Stored

variable {ι δ : Type*} {m m' : PoolMem ι δ} {heads : ι → Option ℕ} {S : Store ι}

/-- One list, and what is in none. -/
theorem nodup (h : Stored m heads S) (i : ι) : (S.lists i ++ (S.alone ++ S.free)).Nodup := by
  refine List.nodup_append.mpr ⟨(h.ring i).nodup, h.loose, ?_⟩
  rintro a ha b hb rfl
  exact h.listed i a ha hb

/-- What is in none of the lists may be linked otherwise. -/
theorem reloose (h : Stored m heads S) {alone free : List ℕ} (hfree : Threaded m'.next m'.objFreelist free)
    (hperm : (alone ++ free).Perm (S.alone ++ S.free))
    (hkeep : ∀ o, o ∉ S.alone ++ S.free → m'.next o = m.next o ∧ m'.prev o = m.prev o) (hfresh : m'.fresh = m.fresh) :
    Stored m' heads (S.reloose alone free) where
  ring i := (h.ring i).congr (fun o ho => (hkeep o (h.listed i o ho)).1) fun o ho => (hkeep o (h.listed i o ho)).2
  free := hfree
  apart := h.apart
  loose := hperm.nodup_iff.mpr h.loose
  listed i o ho hmem := h.listed i o ho (hperm.mem_iff.mp hmem)
  fresh := hfresh.trans h.fresh
  known o := (h.known o).trans (or_congr_right hperm.mem_iff.symm)

/-- A pool begins without objects. -/
theorem start (construct : δ) :
    Stored ({ data := fun _ => construct } : PoolMem ι δ) (fun _ => none) ({} : Store ι) where
  ring _ := ring_nil_iff.mpr rfl
  free := .nil
  apart _ _ _ ho := absurd ho List.not_mem_nil
  loose := List.nodup_nil
  listed _ _ ho := absurd ho List.not_mem_nil
  fresh := rfl
  known _ := by simp

/-- A new object stands alone. -/
theorem make (h : Stored m heads S) : Stored { m with fresh := m.fresh + 1 } heads
    { S with alone := S.fresh :: S.alone, fresh := S.fresh + 1 } := by
  have hnew : ∀ o, (∃ j, o ∈ S.lists j) ∨ o ∈ S.alone ++ S.free → o ≠ S.fresh := fun o ho =>
    Nat.ne_of_lt ((h.known o).mpr ho)
  refine ⟨h.ring, h.free, h.apart, ?_, fun j o ho hmem => ?_, congrArg (· + 1) h.fresh, fun o => ?_⟩
  · exact List.nodup_cons.mpr ⟨fun hmem => hnew _ (.inr hmem) rfl, h.loose⟩
  · rcases List.mem_cons.mp hmem with hmem | hmem
    · exact hnew o (.inl ⟨j, ho⟩) hmem
    · exact h.listed j o ho hmem
  · show o < S.fresh + 1 ↔ (∃ j, o ∈ S.lists j) ∨ o ∈ S.fresh :: (S.alone ++ S.free)
    rw [List.mem_cons, Nat.lt_succ_iff_lt_or_eq, h.known o, or_assoc, or_comm (a := o = S.fresh)]

/-- What stands alone may be linked otherwise. -/
theorem relink (h : Stored m heads S) (hkeep : ∀ o, o ∉ S.alone → m'.next o = m.next o ∧ m'.prev o = m.prev o)
    (hfree : m'.objFreelist = m.objFreelist) (hfresh : m'.fresh = m.fresh) : Stored m' heads S := by
  refine h.reloose ?_ (List.Perm.refl _) (fun o ho => hkeep o fun ha => ho (List.mem_append_left _ ha)) hfresh
  rw [hfree]
  refine h.free.congr fun o ho => (hkeep o fun ha => ?_).1
  exact (List.nodup_append.mp h.loose).2.2 o ha o ho rfl

/-- Only the links and the free list matter. -/
theorem congr (h : Stored m heads S) (hfree : m'.objFreelist = m.objFreelist) (hnext : m'.next = m.next)
    (hprev : m'.prev = m.prev) (hfresh : m'.fresh = m.fresh) : Stored m' heads S where
  ring i := by rw [hnext, hprev]; exact h.ring i
  free := by rw [hnext, hfree]; exact h.free
  apart := h.apart
  loose := h.loose
  listed := h.listed
  fresh := hfresh.trans h.fresh
  known := h.known

variable [DecidableEq ι]

theorem exists_mem_update {f : ι → List ℕ} {i : ι} {l : List ℕ} {o : ℕ} :
    (∃ j, o ∈ Function.update f i l j) ↔ o ∈ l ∨ ∃ j, j ≠ i ∧ o ∈ f j := by
  constructor
  · rintro ⟨j, hj⟩
    by_cases hji : j = i
    · subst hji
      exact .inl (by rwa [Function.update_self] at hj)
    · exact .inr ⟨j, hji, by rwa [Function.update_of_ne hji] at hj⟩
  · rintro (hl | ⟨j, hji, hj⟩)
    · exact ⟨i, by rwa [Function.update_self]⟩
    · exact ⟨j, by rwa [Function.update_of_ne hji]⟩

omit [DecidableEq ι] in
/-- What is in another list is not in this one, and does not stand alone. -/
theorem other (h : Stored m heads S) {i j : ι} (hj : j ≠ i) {o : ℕ} (ho : o ∈ S.lists j) :
    o ∉ S.lists i ++ (S.alone ++ S.free) := by
  intro hmem
  rcases List.mem_append.mp hmem with hmem | hmem
  · exact hj (h.apart j i o ho hmem)
  · exact h.listed j o ho hmem

/-- Between a list and what stands alone objects may be moved. -/
theorem relist (h : Stored m heads S) {i : ι} {head : Option ℕ} {l alone : List ℕ} (hring : Ring m'.next m'.prev head l)
    (hperm : (l ++ alone).Perm (S.lists i ++ S.alone))
    (hkeep : ∀ o, o ∉ S.lists i → o ∉ S.alone → m'.next o = m.next o ∧ m'.prev o = m.prev o)
    (hfree : m'.objFreelist = m.objFreelist) (hfresh : m'.fresh = m.fresh) :
    Stored m' (Function.update heads i head) (S.relist i l alone) := by
  have hall : (l ++ (alone ++ S.free)).Perm (S.lists i ++ (S.alone ++ S.free)) := by
    rw [← List.append_assoc, ← List.append_assoc]
    exact hperm.append_right _
  have hnd := List.nodup_append.mp (hall.nodup_iff.mpr (h.nodup i))
  have hout : ∀ j, j ≠ i → ∀ o ∈ S.lists j, o ∉ l ++ (alone ++ S.free) := fun j hj o ho hmem =>
    h.other hj ho (hall.mem_iff.mp hmem)
  have hlink : ∀ j, j ≠ i → ∀ o ∈ S.lists j, m'.next o = m.next o ∧ m'.prev o = m.prev o := fun j hj o ho =>
    hkeep o (fun hi => h.other hj ho (List.mem_append_left _ hi)) fun ha =>
      h.other hj ho (List.mem_append_right _ (List.mem_append_left _ ha))
  refine ⟨fun j => ?_, ?_, fun j k o hj hk => ?_, hnd.2.1, fun j o ho => ?_, hfresh.trans h.fresh, fun o => ?_⟩
  · by_cases hj : j = i
    · subst hj
      rw [Function.update_self, Store.lists_relist_self]
      exact hring
    · rw [Function.update_of_ne hj, Store.lists_relist_of_ne hj]
      exact (h.ring j).congr (fun o ho => (hlink j hj o ho).1) fun o ho => (hlink j hj o ho).2
  · rw [hfree]
    refine h.free.congr fun o ho => (hkeep o (fun hi => ?_) fun ha => ?_).1
    · exact h.listed i o hi (List.mem_append_right _ ho)
    · exact (List.nodup_append.mp h.loose).2.2 o ha o ho rfl
  · by_cases hji : j = i <;> by_cases hki : k = i
    · exact hji.trans hki.symm
    · subst hji
      rw [Store.lists_relist_self] at hj
      rw [Store.lists_relist_of_ne hki] at hk
      exact absurd (List.mem_append_left _ hj) (hout k hki o hk)
    · subst hki
      rw [Store.lists_relist_self] at hk
      rw [Store.lists_relist_of_ne hji] at hj
      exact absurd (List.mem_append_left _ hk) (hout j hji o hj)
    · rw [Store.lists_relist_of_ne hji] at hj
      rw [Store.lists_relist_of_ne hki] at hk
      exact h.apart j k o hj hk
  · by_cases hji : j = i
    · subst hji
      rw [Store.lists_relist_self] at ho
      exact fun hmem => hnd.2.2 o ho o hmem rfl
    · rw [Store.lists_relist_of_ne hji] at ho
      exact fun hmem => hout j hji o ho (List.mem_append_right _ hmem)
  · have hmem : o ∈ l ∨ o ∈ alone ++ S.free ↔ o ∈ S.lists i ∨ o ∈ S.alone ++ S.free := by
      rw [← List.mem_append, ← List.mem_append, hall.mem_iff]
    have hold := @exists_mem_update _ _ S.lists i (S.lists i) o
    have hnew := @exists_mem_update _ _ S.lists i l o
    rw [Function.update_eq_self] at hold
    exact (h.known o).trans (by rw [hold, or_right_comm, ← hmem, or_right_comm, ← hnew]; rfl)

/-- The objects of a list may stand alone. -/
theorem unlist (h : Stored m heads S) (i : ι) :
    Stored m (Function.update heads i none) (S.relist i [] (S.lists i ++ S.alone)) :=
  h.relist (ring_none_iff.mpr rfl) (List.Perm.refl _) (fun _ _ _ => ⟨rfl, rfl⟩) rfl rfl

end Stored

/-! ### What the functions do -/

namespace PoolMem

variable {ι δ : Type*} {m m' : PoolMem ι δ} {heads : ι → Option ℕ} {S : Store ι} {i : ι} {o : ℕ}

/-- What is left alone when a list is changed: the other variables, and what is in the objects beside the links. -/
structure OnlyList (i : ι) (m m' : PoolMem ι δ) : Prop where
  /-- What is in the objects. -/
  data : m'.data = m.data
  /-- The other variables. -/
  first : ∀ j, j ≠ i → m'.first j = m.first j

/-- What `New` and `NewFront` begin with: an object that then stands alone, or none. -/
inductive Takes (m : PoolMem ι δ) (heads : ι → Option ℕ) (S : Store ι) : Option ℕ × PoolMem ι δ → Option ℕ × Store ι → Prop
  /-- There is no object. -/
  | none : Takes m heads S (.none, m) (.none, S)
  /-- The object `o`. -/
  | some {o : ℕ} {m' : PoolMem ι δ} {S' : Store ι} : Stored m' heads S' → S'.alone = o :: S.alone → S'.lists = S.lists →
      m'.data = m.data → m'.first = m.first → Takes m heads S (.some o, m') (.some o, S')

theorem take_spec (h : Stored m heads S) (newOk : Bool) : Takes m heads S (m.take newOk) (S.take newOk) := by
  have hfree := h.free
  match hl : S.free with
  | o :: rest =>
    rw [hl] at hfree
    obtain ⟨hhead, hrest⟩ := threaded_cons_iff.mp hfree
    have hm : m.take newOk = (some o, { m with objFreelist := m.next o }) := by simp only [take, hhead]
    have hS : S.take newOk = (some o, S.reloose (o :: S.alone) rest) := by simp only [Store.take, hl]
    rw [hm, hS]
    refine .some (h.reloose hrest ?_ (fun _ _ => ⟨rfl, rfl⟩) rfl) rfl rfl rfl rfl
    rw [hl]
    exact List.perm_middle.symm
  | [] =>
    rw [hl, threaded_nil_iff] at hfree
    cases newOk with
    | false =>
      have hm : m.take false = (none, m) := by simp only [take, hfree, Bool.false_eq_true, if_false]
      have hS : S.take false = (none, S) := by simp only [Store.take, hl, Bool.false_eq_true, if_false]
      rw [hm, hS]
      exact .none
    | true =>
      have hm : m.take true = (some m.fresh, { m with fresh := m.fresh + 1 }) := by simp only [take, hfree, if_true]
      have hS : S.take true = (some S.fresh, { S with alone := S.fresh :: S.alone, fresh := S.fresh + 1 }) := by
        simp only [Store.take, hl, if_true]
      rw [hm, hS, h.fresh]
      exact .some (h.fresh ▸ h.make) rfl rfl rfl rfl

/-- What stands alone is in no list. -/
theorem ne_of_alone (h : Stored m heads S) (ho : o ∈ S.alone) : ∀ c ∈ S.lists i, c ≠ o := by
  rintro c hc rfl
  exact h.listed i c hc (List.mem_append_left _ ho)

/-- An object that stands alone may be linked anyhow. -/
theorem links_spec (h : Stored m heads S) (ho : o ∈ S.alone) (n p : Option ℕ) :
    Stored ((m.setNext o n).setPrev o p) heads S := by
  refine h.relink (fun c hc => ?_) rfl rfl
  have hco : c ≠ o := (ne_of_mem_of_not_mem ho hc).symm
  exact ⟨Function.update_of_ne hco .., Function.update_of_ne hco ..⟩

variable [DecidableEq ι]

theorem putLast_none (h : m.first i = none) :
    m.putLast i o = some (((m.setNext o none).setFirst i (some o)).setPrev o (some o)) := by
  simp only [putLast, first_setNext, h]

theorem putLast_some {f lst : ℕ} (h : m.first i = some f) (hlst : m.prev f = some lst) :
    m.putLast i o =
      some ((((m.setNext o none).setNext lst (some o)).setPrev o (some lst)).setPrev f (some o)) := by
  simp only [putLast, first_setNext, h, prev_setNext, hlst, Option.map_some]

/-- An object that stands alone is put behind the others. -/
theorem putLast_spec (h : Stored m heads S) (hi : heads i = m.first i) (ho : o ∈ S.alone) :
    ∃ m', m.putLast i o = some m' ∧
      Stored m' (Function.update heads i (m'.first i)) (S.relist i (S.lists i ++ [o]) (S.alone.erase o)) ∧
        OnlyList i m m' := by
  have hring := h.ring i
  have hne := ne_of_alone (i := i) h ho
  have hperm : (S.lists i ++ [o] ++ S.alone.erase o).Perm (S.lists i ++ S.alone) := by
    rw [List.append_assoc]
    exact (List.perm_cons_erase ho).symm.append_left _
  rw [hi] at hring
  cases hf : m.first i with
  | none =>
    rw [hf, ring_none_iff] at hring
    refine ⟨_, putLast_none hf, h.relist ?_ hperm (fun c _ hc => ?_) rfl rfl, rfl, fun j hj => Function.update_of_ne hj _ _⟩
    · rw [hring, List.nil_append]
      have hfirst : (((m.setNext o none).setFirst i (some o)).setPrev o (some o)).first i = some o := Function.update_self ..
      rw [hfirst]
      exact Ring.single (Function.update_self ..) (Function.update_self ..)
    · have hco : c ≠ o := fun hco => hc (hco ▸ ho)
      exact ⟨Function.update_of_ne hco .., Function.update_of_ne hco ..⟩
  | some f =>
    rw [hf] at hring
    obtain ⟨pre, last, hl, hhead, hprev⟩ := hring.ends
    have hfmem : f ∈ S.lists i := List.mem_of_mem_head? (Option.mem_def.mpr hhead)
    have hlast : last ∈ S.lists i := hl ▸ List.mem_append_right _ (List.mem_singleton_self last)
    have hpre : ∀ c ∈ pre, c ≠ last := by
      rintro c hc rfl
      exact (List.nodup_append.mp (hl ▸ hring.nodup)).2.2 c hc c (List.mem_singleton_self c) rfl
    refine ⟨_, putLast_some hf hprev, h.relist ?_ hperm (fun c hc hc' => ?_) rfl rfl, rfl, fun _ _ => rfl⟩
    · show Ring _ _ (m.first i) _
      rw [hf, hl, List.append_assoc]
      rw [hl] at hring
      refine hring.concat (fun c hc => ?_) (Function.update_self ..) ?_ (fun c hc hcf => ?_) (Function.update_self ..) ?_
      · have hco := hne c (hl ▸ List.mem_append_left _ hc)
        exact (Function.update_of_ne (hpre c hc) ..).trans (Function.update_of_ne hco ..)
      · exact (Function.update_of_ne (hne last hlast).symm ..).trans (Function.update_self ..)
      · have hco := hne c (hl ▸ hc)
        exact (Function.update_of_ne hcf ..).trans (Function.update_of_ne hco ..)
      · exact (Function.update_of_ne (hne f hfmem).symm ..).trans (Function.update_self ..)
    · have hco : c ≠ o := fun hco => hc' (hco ▸ ho)
      have hcl : c ≠ last := fun hcl => hc (hcl ▸ hlast)
      have hcf : c ≠ f := fun hcf => hc (hcf ▸ hfmem)
      exact ⟨(Function.update_of_ne hcl ..).trans (Function.update_of_ne hco ..),
        (Function.update_of_ne hcf ..).trans (Function.update_of_ne hco ..)⟩

/-- What `putFirst` makes of the links. -/
theorem putFirst_spec (h : Stored m heads S) (hi : heads i = m.first i) (ho : o ∈ S.alone) :
    Stored (m.putFirst i o) (Function.update heads i ((m.putFirst i o).first i))
      (S.relist i (o :: S.lists i) (S.alone.erase o)) ∧
      OnlyList i m (m.putFirst i o) := by
  have hring := h.ring i
  have hne := ne_of_alone (i := i) h ho
  have hperm : (o :: S.lists i ++ S.alone.erase o).Perm (S.lists i ++ S.alone) :=
    List.perm_middle.symm.trans ((List.perm_cons_erase ho).symm.append_left _)
  have hfirst : (m.putFirst i o).first i = some o := Function.update_self ..
  rw [hi] at hring
  rw [hfirst]
  cases hf : m.first i with
  | none =>
    have hput : m.putFirst i o = ((m.setNext o none).setPrev o (some o)).setFirst i (some o) := by
      simp only [putFirst, first_setNext, hf]
    rw [hf, ring_none_iff] at hring
    rw [hput, hring]
    refine ⟨h.relist (Ring.single (Function.update_self ..) (Function.update_self ..)) (hring ▸ hperm)
      (fun c _ hc => ?_) rfl rfl,
      rfl, fun j hj => Function.update_of_ne hj _ _⟩
    have hco : c ≠ o := fun hco => hc (hco ▸ ho)
    exact ⟨Function.update_of_ne hco .., Function.update_of_ne hco ..⟩
  | some f =>
    have hput : m.putFirst i o =
        (((m.setNext o (some f)).setPrev o (m.prev f)).setPrev f (some o)).setFirst i (some o) := by
      simp only [putFirst, first_setNext, hf, prev_setNext]
    rw [hf] at hring
    obtain ⟨pre, last, hl, hhead, hprev⟩ := hring.ends
    have hfmem : f ∈ S.lists i := List.mem_of_mem_head? (Option.mem_def.mpr hhead)
    rw [hput]
    refine ⟨h.relist (hring.cons (fun c hc => ?_) (Function.update_self ..) (fun c hc hcf => ?_)
      (Function.update_self ..) ?_) hperm
      (fun c hc hc' => ?_) rfl rfl, rfl, fun j hj => Function.update_of_ne hj _ _⟩
    · exact Function.update_of_ne (hne c hc) ..
    · exact (Function.update_of_ne hcf ..).trans (Function.update_of_ne (hne c hc) ..)
    · exact (Function.update_of_ne (hne f hfmem).symm ..).trans (Function.update_self ..)
    · have hco : c ≠ o := fun hco => hc' (hco ▸ ho)
      have hcf : c ≠ f := fun hcf => hc (hcf ▸ hfmem)
      exact ⟨Function.update_of_ne hco .., (Function.update_of_ne hcf ..).trans (Function.update_of_ne hco ..)⟩

theorem unlink_head {n : Option ℕ} (h : m.first i = some o) (hn : m.next o = n) :
    m.unlink i o = some ((match n with | some n => m.setPrev n (m.prev o) | none => m).setFirst i n) := by
  subst hn
  cases hn : m.next o with
  | none => simp only [unlink, h, if_true, hn]
  | some n => simp only [unlink, h, if_true, hn, next_setPrev]

theorem unlink_mid {p n : ℕ} (h : m.first i ≠ some o) (hp : m.prev o = some p) (hn : m.next o = some n) :
    m.unlink i o = some ((m.setNext p (some n)).setPrev n (some p)) := by
  simp only [unlink, if_neg h, hp, Option.bind_some, hn]

theorem unlink_last {p f : ℕ} (h : m.first i ≠ some o) (hp : m.prev o = some p) (hn : m.next o = none)
    (hf : m.first i = some f) : m.unlink i o = some ((m.setNext p none).setPrev f (some p)) := by
  rw [unlink, if_neg h, hp, Option.bind_some]
  simp only [hn, first_setNext, hf, Option.map_some]

/-- An object of a list is taken out, and stands alone. -/
theorem unlink_spec (h : Stored m heads S) (hi : heads i = m.first i) (ho : o ∈ S.lists i) :
    ∃ m', m.unlink i o = some m' ∧
      Stored m' (Function.update heads i (m'.first i)) (S.relist i ((S.lists i).erase o) (o :: S.alone)) ∧
        OnlyList i m m' := by
  have hring := h.ring i
  have hperm : ((S.lists i).erase o ++ o :: S.alone).Perm (S.lists i ++ S.alone) :=
    List.perm_middle.trans ((List.perm_cons_erase ho).symm.append_right _)
  rw [hi] at hring
  obtain ⟨hhead, post, hl, hn⟩ | ⟨pre, p, post, hl, hhead, hp, hn⟩ := hring.place ho
  · have herase : (S.lists i).erase o = post := by rw [hl, List.erase_cons_head]
    rw [herase] at hperm ⊢
    cases post with
    | nil =>
      refine ⟨_, unlink_head hhead hn, ?_, rfl, fun j hj => Function.update_of_ne hj _ _⟩
      refine h.relist (ring_nil_iff.mpr (Function.update_self ..)) hperm (fun _ _ _ => ⟨rfl, rfl⟩) rfl rfl
    | cons n post =>
      have hnmem : n ∈ S.lists i := hl ▸ List.mem_cons_of_mem _ (List.mem_cons_self ..)
      have hnd := (List.nodup_cons.mp (hl ▸ hring.nodup)).2
      refine ⟨_, unlink_head hhead hn, ?_, rfl, fun j hj => Function.update_of_ne hj _ _⟩
      have hfirst : ((m.setPrev n (m.prev o)).setFirst i (some n)).first i = some n := Function.update_self ..
      rw [List.head?_cons, hfirst]
      refine h.relist ?_ hperm (fun c hc _ => ⟨rfl, Function.update_of_ne (ne_of_mem_of_not_mem hnmem hc).symm ..⟩) rfl rfl
      rw [hl] at hring
      refine hring.erase_head (fun _ _ => rfl) (Function.update_self ..) fun c hc => Function.update_of_ne ?_ ..
      rintro rfl
      exact (List.nodup_cons.mp hnd).1 hc
  · have hnd := hl ▸ hring.nodup
    have hnot : o ∉ pre ++ [p] := fun hmem =>
      (List.nodup_append.mp (List.append_cons pre p _ ▸ hnd)).2.2 o hmem o (List.mem_cons_self ..) rfl
    have herase : (S.lists i).erase o = pre ++ p :: post := by
      rw [hl, List.append_cons, List.erase_append_right _ hnot, List.erase_cons_head, ← List.append_cons]
    have hpmem : p ∈ S.lists i := hl ▸ List.mem_append_right _ (List.mem_cons_self ..)
    have hpre : ∀ c ∈ pre, c ≠ p := by
      rintro c hc rfl
      exact (List.nodup_append.mp hnd).2.2 c hc c (List.mem_cons_self ..) rfl
    rw [herase] at hperm ⊢
    cases post with
    | nil =>
      cases hf : m.first i with
      | none =>
        rw [hf, ring_none_iff] at hring
        exact absurd ho (hring ▸ List.not_mem_nil)
      | some f =>
        have hfmem : f ∈ S.lists i := by
          rw [hf] at hring
          obtain ⟨_, _, -, hfhead, -⟩ := hring.ends
          exact List.mem_of_mem_head? (Option.mem_def.mpr hfhead)
        refine ⟨_, unlink_last hhead hp hn hf, h.relist ?_ hperm (fun c hc _ => ?_) rfl rfl, rfl, fun _ _ => rfl⟩
        · show Ring _ _ (m.first i) _
          rw [hf, hl] at hring
          rw [hf]
          exact hring.erase_last (fun c hc => Function.update_of_ne (hpre c hc) ..) (Function.update_self ..)
            (fun c _ hcf => Function.update_of_ne hcf ..) (Function.update_self ..)
        · exact ⟨Function.update_of_ne (ne_of_mem_of_not_mem hpmem hc).symm ..,
            Function.update_of_ne (ne_of_mem_of_not_mem hfmem hc).symm ..⟩
    | cons n post =>
      have hnmem : n ∈ S.lists i :=
        hl ▸ List.mem_append_right _ (List.mem_cons_of_mem _ (List.mem_cons_of_mem _ (List.mem_cons_self ..)))
      have hnd' : (pre ++ p :: n :: post).Nodup := hnd.sublist
        ((List.Sublist.cons_cons p (List.sublist_cons_self o _)).append_left pre)
      have hsplit := List.nodup_append.mp hnd'
      have hpn : (p :: n :: post).Nodup := hsplit.2.1
      refine ⟨_, unlink_mid hhead hp hn, h.relist ?_ hperm (fun c hc _ => ?_) rfl rfl, rfl, fun _ _ => rfl⟩
      · rw [hl] at hring
        refine hring.erase_mid (fun c hc => Function.update_of_ne ?_ ..) (Function.update_self ..)
          (fun c hc => Function.update_of_ne ?_ ..) (Function.update_self ..)
        · rintro rfl
          rcases List.mem_append.mp hc with hc | hc
          · exact hpre c hc rfl
          · exact (List.nodup_cons.mp hpn).1 hc
        · rintro rfl
          rcases List.mem_append.mp hc with hc | hc
          · exact hsplit.2.2 c hc c (List.mem_cons_of_mem _ (List.mem_cons_self ..)) rfl
          · rcases List.mem_cons.mp hc with rfl | hc
            · exact (List.nodup_cons.mp hpn).1 (List.mem_cons_self ..)
            · exact (List.nodup_cons.mp (List.nodup_cons.mp hpn).2).1 hc
      · exact ⟨Function.update_of_ne (ne_of_mem_of_not_mem hpmem hc).symm ..,
          Function.update_of_ne (ne_of_mem_of_not_mem hnmem hc).symm ..⟩

/-- `New(first)` makes an object the last one of its list. -/
theorem newLast_spec (h : Stored m heads S) (hi : heads i = m.first i) (newOk : Bool) :
    (m.newLast newOk i = some (none, m) ∧ S.take newOk = (none, S)) ∨
      ∃ o m' S', m.newLast newOk i = some (some o, m') ∧ S.take newOk = (some o, S') ∧ o ∈ S'.alone ∧
        Stored m' (Function.update heads i (m'.first i)) (S'.relist i (S'.lists i ++ [o]) (S'.alone.erase o)) ∧
        OnlyList i m m' := by
  have htake := take_spec h newOk
  unfold newLast
  generalize m.take newOk = x at htake ⊢
  generalize S.take newOk = y at htake ⊢
  cases htake with
  | none => exact .inl ⟨rfl, rfl⟩
  | @some o m₁ S₁ hS halone _ hdata hfirst =>
    have ho : o ∈ S₁.alone := halone ▸ List.mem_cons_self ..
    obtain ⟨m', hm, hS', hlist⟩ := putLast_spec hS (hi.trans (congrFun hfirst i).symm) ho
    refine .inr ⟨o, m', S₁, by simp only [hm, Option.map_some], rfl, ho, hS', hlist.data.trans hdata, fun j hj => ?_⟩
    exact (hlist.first j hj).trans (congrFun hfirst j)

/-- `NewFront(first)` makes an object the first one of its list. -/
theorem newFront_spec (h : Stored m heads S) (hi : heads i = m.first i) (newOk : Bool) :
    (m.newFront newOk i = (none, m) ∧ S.take newOk = (none, S)) ∨
      ∃ o m' S', m.newFront newOk i = (some o, m') ∧ S.take newOk = (some o, S') ∧ o ∈ S'.alone ∧
        Stored m' (Function.update heads i (m'.first i)) (S'.relist i (o :: S'.lists i) (S'.alone.erase o)) ∧
        OnlyList i m m' := by
  have htake := take_spec h newOk
  unfold newFront
  generalize m.take newOk = x at htake ⊢
  generalize S.take newOk = y at htake ⊢
  cases htake with
  | none => exact .inl ⟨rfl, rfl⟩
  | @some o m₁ S₁ hS halone _ hdata hfirst =>
    have ho : o ∈ S₁.alone := halone ▸ List.mem_cons_self ..
    obtain ⟨hS', hlist⟩ := putFirst_spec hS (hi.trans (congrFun hfirst i).symm) ho
    refine .inr ⟨o, _, S₁, rfl, rfl, ho, hS', hlist.data.trans hdata, fun j hj => ?_⟩
    exact (hlist.first j hj).trans (congrFun hfirst j)

/-- `Detach(first, obj)` takes an object out of its list. -/
theorem detach_spec (h : Stored m heads S) (hi : heads i = m.first i) (ho : o ∈ S.lists i) :
    ∃ m', m.detach i o = some m' ∧
      Stored m' (Function.update heads i (m'.first i)) (S.relist i ((S.lists i).erase o) (o :: S.alone)) ∧
        OnlyList i m m' := by
  obtain ⟨m', hm, hS, hlist⟩ := unlink_spec h hi ho
  refine ⟨(m'.setNext o none).setPrev o none, by rw [detach, hm, Option.map_some], ?_, hlist.data, hlist.first⟩
  exact links_spec hS (List.mem_cons_self ..) none none

omit [DecidableEq ι] in
theorem addToFreeList_eq {f lst : ℕ} (h : m.prev f = some lst) :
    m.addToFreeList f = some { m.setNext lst m.objFreelist with objFreelist := some f } := by
  rw [addToFreeList, h, Option.map_some]

omit [DecidableEq ι] in
/-- A list that is known to its end, of objects that stand alone, is put to the free list. -/
theorem addToFreeList_spec (h : Stored m heads S) {f : ℕ} {l rest : List ℕ} (hl : Tailed m.next m.prev (some f) l)
    (hperm : S.alone.Perm (l ++ rest)) : ∃ m', m.addToFreeList f = some m' ∧ Stored m' heads (S.reloose rest (l ++ S.free)) ∧
      m'.data = m.data ∧ m'.first = m.first ∧ m'.prev = m.prev ∧ ∀ c, c ∉ l → m'.next c = m.next c := by
  obtain ⟨pre, last, rfl, hprev⟩ := hl.ends
  have hlast : last ∈ pre ++ [last] := List.mem_append_right _ (List.mem_singleton_self last)
  have hnd : (pre ++ [last] ++ rest ++ S.free).Nodup := (hperm.append_right S.free).nodup_iff.mp h.loose
  have hnd' := List.nodup_append.mp hnd
  have hpre : ∀ c ∈ pre, c ≠ last := by
    rintro c hc rfl
    have hl := (List.nodup_append.mp hnd'.1).1
    exact (List.nodup_append.mp hl).2.2 c hc c (List.mem_singleton_self c) rfl
  refine ⟨_, addToFreeList_eq hprev, h.reloose ?_ ?_ (fun c hc => ⟨Function.update_of_ne ?_ .., rfl⟩) rfl, rfl, rfl, rfl,
    fun c hc => Function.update_of_ne (ne_of_mem_of_not_mem hlast hc).symm _ _⟩
  · show Threaded (Function.update m.next last m.objFreelist) (some f) (pre ++ [last] ++ S.free)
    rw [List.append_assoc, List.singleton_append]
    refine hl.forth.reroute (fun c hc => Function.update_of_ne (hpre c hc) ..) ?_
    rw [Function.update_self]
    refine h.free.congr fun c hc => Function.update_of_ne ?_ ..
    rintro rfl
    exact hnd'.2.2 c (List.mem_append_left _ hlast) c hc rfl
  · refine List.Perm.trans ?_ (hperm.append_right S.free).symm
    rw [List.append_assoc (pre ++ [last])]
    exact List.perm_append_comm_assoc rest (pre ++ [last]) S.free
  · rintro rfl
    exact hc (List.mem_append_left _ (hperm.mem_iff.mpr (List.mem_append_left _ hlast)))

omit [DecidableEq ι] in
/-- An object that stands alone is put to the free list. -/
theorem recycle_spec (h : Stored m heads S) (ho : o ∈ S.alone) :
    Stored (m.recycle o) heads (S.reloose (S.alone.erase o) (o :: S.free)) := by
  refine h.reloose ?_ (List.perm_middle.trans ((List.perm_cons_erase ho).symm.append_right S.free))
    (fun c hc => ⟨Function.update_of_ne ?_ .., rfl⟩) rfl
  · refine .cons ?_
    show Threaded (Function.update m.next o m.objFreelist) (Function.update m.next o m.objFreelist o) S.free
    rw [Function.update_self]
    refine h.free.congr fun c hc => Function.update_of_ne ?_ ..
    rintro rfl
    exact (List.nodup_append.mp h.loose).2.2 c ho c hc rfl
  · exact (ne_of_mem_of_not_mem (List.mem_append_left _ ho) hc).symm

/-- A list whose objects have all been released is put to the free list. -/
theorem addList_spec (h : Stored m heads S) (hi : heads i = m.first i) (hne : S.lists i ≠ []) :
    ∃ m', (m.first i).bind (fun f => (m.addToFreeList f).map (setFirst i none)) = some m' ∧
      Stored m' (Function.update heads i none) ((S.relist i [] S.alone).reloose S.alone (S.lists i ++ S.free)) ∧
      m'.data = m.data ∧ m'.first = Function.update m.first i none := by
  have hring := h.ring i
  rw [hi] at hring
  cases hf : m.first i with
  | none =>
    rw [hf, ring_none_iff] at hring
    exact absurd hring hne
  | some f =>
    rw [hf] at hring
    obtain ⟨m', hm, hS, hdata, hfirst, -, -⟩ := addToFreeList_spec (h.unlist i) hring.tailed (List.Perm.refl _)
    refine ⟨m'.setFirst i none, by rw [Option.bind_some, hm, Option.map_some], hS.congr rfl rfl rfl rfl, hdata, ?_⟩
    show Function.update m'.first i none = _
    rw [hfirst]

end PoolMem

/-! ### Operations -/

/-- An operation of a pool, with whether `new` succeeds. -/
inductive PoolOp (ι : Type*) where
  /-- `New()`. -/
  | new (newOk : Bool)
  /-- `Delete(obj)`. -/
  | delete (obj : ℕ)
  /-- `New(first)`. -/
  | newLast (i : ι) (newOk : Bool)
  /-- `NewFront(first)`. -/
  | newFront (i : ι) (newOk : Bool)
  /-- `Delete(first, obj)`. -/
  | deleteFrom (i : ι) (obj : ℕ)
  /-- `Detach(first, obj)`. -/
  | detach (i : ι) (obj : ℕ)
  /-- `DeleteAll(first)`. -/
  | deleteAll (i : ι)

namespace PoolOp

variable {ι δ : Type*} [DecidableEq ι]

omit [DecidableEq ι] in
/-- A `ReleaseObject` that does what the pool asks of it: it changes what is in the object, and no links. -/
def release (f : δ → δ) (o : ℕ) (m : PoolMem ι δ) : Option (PoolMem ι δ) :=
  some { m with data := Function.update m.data o (f (m.data o)) }

/-- What an operation makes of the memory. The loop of `DeleteAll` may take a turn for each object, and one more. -/
def run (f : δ → δ) : PoolOp ι → PoolMem ι δ → Option (PoolMem ι δ)
  | new newOk, m => some (m.new newOk).2
  | delete obj, m => m.delete (release f) obj
  | newLast i newOk, m => (m.newLast newOk i).map Prod.snd
  | newFront i newOk, m => some (m.newFront newOk i).2
  | deleteFrom i obj, m => m.deleteFrom (release f) i obj
  | detach i obj, m => m.detach i obj
  | deleteAll i, m => m.deleteAll (release f) (m.fresh + 1) i

/-- What an operation makes of the store. What is deleted stands alone or is in the list that is given, and a list that is
deleted is not empty. -/
def apply : PoolOp ι → Store ι → Option (Store ι)
  | new newOk, S => some (S.take newOk).2
  | delete obj, S => if obj ∈ S.alone then some (S.reloose (S.alone.erase obj) (obj :: S.free)) else none
  | newLast i newOk, S => match S.take newOk with
    | (some o, S) => some (S.relist i (S.lists i ++ [o]) (S.alone.erase o))
    | (none, S) => some S
  | newFront i newOk, S => match S.take newOk with
    | (some o, S) => some (S.relist i (o :: S.lists i) (S.alone.erase o))
    | (none, S) => some S
  | deleteFrom i obj, S =>
    if obj ∈ S.lists i then some ((S.relist i ((S.lists i).erase obj) S.alone).reloose S.alone (obj :: S.free)) else none
  | detach i obj, S => if obj ∈ S.lists i then some (S.relist i ((S.lists i).erase obj) (obj :: S.alone)) else none
  | deleteAll i, S =>
    if S.lists i = [] then none else some ((S.relist i [] S.alone).reloose S.alone (S.lists i ++ S.free))

/-- Operations, one after the other. -/
def runAll (f : δ → δ) : List (PoolOp ι) → PoolMem ι δ → Option (PoolMem ι δ)
  | [], m => some m
  | op :: ops, m => (op.run f m).bind (runAll f ops)

/-- The same, of the store. -/
def applyAll : List (PoolOp ι) → Store ι → Option (Store ι)
  | [], S => some S
  | op :: ops, S => (op.apply S).bind (applyAll ops)

variable {m m' : PoolMem ι δ} {S S' : Store ι}

omit [DecidableEq ι] in
/-- The loop of `DeleteAll` ends, and leaves the links alone. -/
theorem deleteAllLoop_release (f : δ → δ) : ∀ {l : List ℕ} {turns : ℕ} {head : Option ℕ} {m : PoolMem ι δ},
    Threaded m.next head l → l.length < turns →
    ∃ data, PoolMem.deleteAllLoop (release f) turns head m = some { m with data := data } := by
  intro l
  induction l with
  | nil =>
    intro turns head m hl hturns
    obtain ⟨turns, rfl⟩ := Nat.exists_eq_add_one_of_ne_zero (Nat.ne_zero_of_lt hturns)
    rw [threaded_nil_iff.mp hl]
    exact ⟨m.data, rfl⟩
  | cons o l ih =>
    intro turns head m hl hturns
    obtain ⟨turns, rfl⟩ := Nat.exists_eq_add_one_of_ne_zero (Nat.ne_zero_of_lt hturns)
    obtain ⟨rfl, hrest⟩ := threaded_cons_iff.mp hl
    exact ih (m := { m with data := Function.update m.data o (f (m.data o)) }) hrest (Nat.lt_of_succ_lt_succ hturns)

omit [DecidableEq ι] in
/-- A list is not longer than the number of objects. -/
theorem length_lists_le {heads : ι → Option ℕ} (h : Stored m heads S) (i : ι) : (S.lists i).length ≤ m.fresh := by
  have hsub : S.lists i ⊆ List.range m.fresh := fun o ho =>
    List.mem_range.mpr (h.fresh ▸ (h.known o).mpr (.inl ⟨i, ho⟩))
  have hle := List.Nodup.length_le_of_subset (h.ring i).nodup hsub
  rwa [List.length_range] at hle

/-- What a variable holds is what has been written to it. -/
theorem update_first {i : ι} (h : PoolMem.OnlyList i m m') : Function.update m.first i (m'.first i) = m'.first := by
  funext j
  by_cases hj : j = i
  · subst hj
    rw [Function.update_self]
  · rw [Function.update_of_ne hj, h.first j hj]

/-- **An operation of the pool is the operation of the store**, where that is defined. -/
theorem run_spec (f : δ → δ) {op : PoolOp ι} (h : Stored m m.first S) (hop : op.apply S = some S') :
    ∃ m', op.run f m = some m' ∧ Stored m' m'.first S' := by
  cases op with
  | new newOk =>
    have htake := PoolMem.take_spec h newOk
    rw [apply, Option.some.injEq] at hop
    rw [run, PoolMem.new]
    generalize m.take newOk = x at htake ⊢
    generalize S.take newOk = y at htake hop
    cases htake with
    | none => exact ⟨m, rfl, hop ▸ h⟩
    | @some o m₁ S₁ hS halone _ _ hfirst =>
      refine ⟨_, rfl, ?_⟩
      have hlinks := PoolMem.links_spec hS (halone ▸ List.mem_cons_self .. : o ∈ S₁.alone) none (some o)
      exact hop ▸ hfirst ▸ hlinks
  | delete obj =>
    rw [apply] at hop
    split at hop
    · next ho =>
      cases hop
      exact ⟨_, rfl, PoolMem.recycle_spec (h.congr rfl rfl rfl rfl) ho⟩
    · cases hop
  | newLast i newOk =>
    rw [apply] at hop
    rw [run]
    obtain ⟨hm, hS⟩ | ⟨o, m', S₁, hm, hS, -, hstored, hlist⟩ := PoolMem.newLast_spec (i := i) h rfl newOk
    · rw [hS] at hop
      obtain rfl := Option.some.inj hop
      exact ⟨m, by rw [hm, Option.map_some], h⟩
    · rw [hS] at hop
      obtain rfl := Option.some.inj hop
      exact ⟨m', by rw [hm, Option.map_some], update_first hlist ▸ hstored⟩
  | newFront i newOk =>
    rw [apply] at hop
    rw [run]
    obtain ⟨hm, hS⟩ | ⟨o, m', S₁, hm, hS, -, hstored, hlist⟩ := PoolMem.newFront_spec (i := i) h rfl newOk
    · rw [hS] at hop
      obtain rfl := Option.some.inj hop
      exact ⟨m, by rw [hm], h⟩
    · rw [hS] at hop
      obtain rfl := Option.some.inj hop
      exact ⟨m', by rw [hm], update_first hlist ▸ hstored⟩
  | deleteFrom i obj =>
    rw [apply] at hop
    split at hop
    · next ho =>
      cases hop
      obtain ⟨m', hm, hS, hlist⟩ := PoolMem.unlink_spec h rfl ho
      have hreleased : Stored { m' with data := Function.update m'.data obj (f (m'.data obj)) } _ _ :=
        hS.congr rfl rfl rfl rfl
      have hdel := PoolMem.recycle_spec hreleased (List.mem_cons_self ..)
      refine ⟨_, by rw [run, PoolMem.deleteFrom, hm]; rfl, ?_⟩
      rw [Store.alone_relist, List.erase_cons_head, update_first hlist] at hdel
      exact hdel
    · cases hop
  | detach i obj =>
    rw [apply] at hop
    split at hop
    · next ho =>
      cases hop
      obtain ⟨m', hm, hS, hlist⟩ := PoolMem.detach_spec h rfl ho
      exact ⟨m', hm, update_first hlist ▸ hS⟩
    · cases hop
  | deleteAll i =>
    rw [apply] at hop
    split at hop
    · cases hop
    · next hne =>
      cases hop
      obtain ⟨data, hloop⟩ := deleteAllLoop_release f (h.ring i).forth (Nat.lt_succ_of_le (length_lists_le h i))
      have hreleased : Stored { m with data := data } m.first S := h.congr rfl rfl rfl rfl
      obtain ⟨m', hm, hS, -, hfirst⟩ := PoolMem.addList_spec hreleased rfl hne
      refine ⟨m', by rw [run, PoolMem.deleteAll, hloop, Option.bind_some, hm], ?_⟩
      rw [hfirst]
      exact hS

/-- **The lists of a pool stay well formed.** After any operations on any lists that share a pool, the variables lead to the
lists that the operations make: each is a chain by `next` that ends, linked back by `prev` with the first one leading back to
the last one; no object is in two lists, or twice in one, or in a list and alone or free; and no object is lost. -/
theorem stored_of_ops (f : δ → δ) (construct : δ) {ops : List (PoolOp ι)} (h : applyAll ops {} = some S) :
    ∃ m, runAll f ops { data := fun _ => construct } = some m ∧ Stored m m.first S := by
  have hrun : ∀ {ops : List (PoolOp ι)} {m : PoolMem ι δ} {S₀ : Store ι}, Stored m m.first S₀ → applyAll ops S₀ = some S →
      ∃ m', runAll f ops m = some m' ∧ Stored m' m'.first S := by
    intro ops
    induction ops with
    | nil =>
      intro m S₀ hS hops
      cases hops
      exact ⟨m, rfl, hS⟩
    | cons op ops ih =>
      intro m S₀ hS hops
      obtain ⟨S₁, hop, hops⟩ := Option.bind_eq_some_iff.mp hops
      obtain ⟨m₁, hm, hS₁⟩ := run_spec f hS hop
      obtain ⟨m', hm', hS'⟩ := ih hS₁ hops
      exact ⟨m', by rw [runAll, hm, Option.bind_some, hm'], hS'⟩
  exact hrun (Stored.start construct) h

/-- Two lists, of which one loses its first object, one its last, and then all. -/
theorem stored_of_ops_mixed : ∃ (S : Store Bool) (m : PoolMem Bool Unit),
    applyAll [.newLast true true, .newLast true true, .newFront true true, .newLast false true, .new true,
      .deleteFrom true 2, .detach true 1, .newLast false true, .delete 4, .deleteAll false] {} = some S ∧
    S.lists true = [0] ∧ S.alone = [1] ∧ S.free = [3, 2, 4] ∧
    runAll id [.newLast true true, .newLast true true, .newFront true true, .newLast false true, .new true,
      .deleteFrom true 2, .detach true 1, .newLast false true, .delete 4, .deleteAll false]
        { data := fun _ => () } = some m ∧
    Stored m m.first S := by
  obtain ⟨m, hm, hS⟩ := stored_of_ops id () (rfl : applyAll [.newLast true true, .newLast true true, .newFront true true,
    .newLast false true, .new true, .deleteFrom true 2, .detach true 1, .newLast false true, .delete 4, .deleteAll false]
    ({} : Store Bool) = some _)
  exact ⟨_, m, rfl, rfl, rfl, rfl, hm, hS⟩

end PoolOp

end KnvProto.Memory
