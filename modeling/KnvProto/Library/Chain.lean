import Mathlib.Data.List.Basic
import Mathlib.Data.List.Perm.Basic
import Mathlib.Data.List.Range

/-!
# Tables of chains

A hash table with a chain of elements for each bucket, over any type of
elements and any hash. An element is put at the head of its chain; a table is
rebuilt by walking the chains bucket by bucket and putting every element again.

`Agrees ch h S` says that the chains hold exactly the elements of `S`, each as
often as it is in `S` and in the bucket of its hash. It does not mention order,
so it does not depend on where `S` itself grows; the order within a chain is
given by `relink_apply`.
-/

namespace KnvProto.Chain

/-- A chain for every bucket. -/
abbrev Chains (α : Type*) := ℕ → List α

variable {α : Type*}

/-- Put `x` at the head of chain `b`. -/
def link (ch : Chains α) (b : ℕ) (x : α) : Chains α := fun b' => if b' = b then x :: ch b else ch b'

/-- Take `x` out of chain `b`. -/
def unlink [DecidableEq α] (ch : Chains α) (b : ℕ) (x : α) : Chains α := fun b' => if b' = b then (ch b).erase x else ch b'

/-- The chains got by putting the elements of a list one after the other. -/
def relink (h : α → ℕ) (xs : List α) : Chains α := xs.foldl (fun ch x => link ch (h x) x) fun _ => []

/-- The elements of the first `n` chains, bucket by bucket. -/
def entries (ch : Chains α) (n : ℕ) : List α := (List.range n).flatMap ch

/-- The chains hold exactly the elements of `S`, each in the bucket of its hash. -/
def Agrees (ch : Chains α) (h : α → ℕ) (S : List α) : Prop := ∀ b, (ch b).Perm (S.filter fun x => h x = b)

variable {ch : Chains α} {h h' : α → ℕ} {S S' : List α}

theorem agrees_nil : Agrees (fun _ => []) h ([] : List α) := fun _ => List.Perm.nil

theorem Agrees.mem (H : Agrees ch h S) {x : α} {b : ℕ} : x ∈ ch b ↔ x ∈ S ∧ h x = b := by
  rw [(H b).mem_iff, List.mem_filter, decide_eq_true_eq]

theorem Agrees.perm (H : Agrees ch h S) (hS : S.Perm S') : Agrees ch h S' :=
  fun b => (H b).trans (hS.filter _)

/-- The chains depend on the hashes of the elements of `S` only. -/
theorem Agrees.congr (H : Agrees ch h S) (hh : ∀ x ∈ S, h x = h' x) : Agrees ch h' S := by
  intro b
  have : (S.filter fun x => h x = b) = S.filter fun x => h' x = b :=
    List.filter_congr fun x hx => by rw [hh x hx]
  exact this ▸ H b

theorem Agrees.nodup (H : Agrees ch h S) (hS : S.Nodup) (b : ℕ) : (ch b).Nodup :=
  (H b).nodup_iff.mpr (hS.filter _)

theorem Agrees.link (H : Agrees ch h S) (x : α) : Agrees (link ch (h x) x) h (x :: S) := by
  intro b
  by_cases hb : b = h x
  · subst hb
    simp only [Chain.link, if_true, List.filter_cons, decide_true]
    exact (H _).cons x
  · simp only [Chain.link, if_neg hb, List.filter_cons, decide_eq_true_eq, if_neg (Ne.symm hb)]
    exact H b

theorem Agrees.unlink [DecidableEq α] (H : Agrees ch h S) (x : α) : Agrees (unlink ch (h x) x) h (S.erase x) := by
  intro b
  by_cases hx : x ∈ S
  · have hperm := H.perm (List.perm_cons_erase hx)
    by_cases hb : b = h x
    · subst hb
      have := hperm (h x)
      simp only [List.filter_cons, decide_true, if_true] at this
      simp only [Chain.unlink, if_true]
      simpa using this.erase x
    · have := hperm b
      simp only [List.filter_cons, decide_eq_true_eq, if_neg (Ne.symm hb)] at this
      simpa only [Chain.unlink, if_neg hb] using this
  · rw [List.erase_of_not_mem hx]
    by_cases hb : b = h x
    · subst hb
      simp only [Chain.unlink, if_true]
      rw [List.erase_of_not_mem fun hmem => hx (H.mem.mp hmem).1]
      exact H _
    · simpa only [Chain.unlink, if_neg hb] using H b

/-- Walking all chains meets every element as often as it is in `S`. -/
theorem Agrees.entries_perm (H : Agrees ch h S) {n : ℕ} (hn : ∀ x ∈ S, h x < n) : (entries ch n).Perm S := by
  have key : ∀ m, (entries ch m).Perm (S.filter fun x => h x < m) := by
    intro m
    induction m with
    | zero => simp [entries]
    | succ m ih =>
      have hsplit : entries ch (m + 1) = entries ch m ++ ch m := by
        simp [entries, List.range_succ, List.flatMap_append]
      have hfilter : (S.filter fun x => h x < m + 1).Perm
          ((S.filter fun x => h x < m) ++ S.filter fun x => h x = m) := by
        have := List.filter_append_perm (fun x => decide (h x < m)) (S.filter fun x => h x < m + 1)
        refine this.symm.trans (List.Perm.append (List.Perm.of_eq ?_) (List.Perm.of_eq ?_))
        · rw [List.filter_filter]
          exact List.filter_congr fun x _ => by
            rw [← Bool.decide_and]
            exact decide_eq_decide.mpr (by omega)
        · rw [List.filter_filter]
          exact List.filter_congr fun x _ => by
            rw [← decide_not, ← Bool.decide_and]
            exact decide_eq_decide.mpr (by omega)
      rw [hsplit]
      exact (List.Perm.append ih (H m)).trans hfilter.symm
  have hall : (S.filter fun x => h x < n) = S :=
    List.filter_eq_self.mpr fun x hx => decide_eq_true (hn x hx)
  exact (key n).trans (List.Perm.of_eq hall)

/-- Elements that are all in one chain are walked in its order. -/
theorem filter_entries_sublist {p : α → Bool} {c : ℕ} (h : ∀ b, ∀ x ∈ ch b, p x = true → b = c) (m : ℕ) :
    ((entries ch m).filter p).Sublist (ch c) := by
  have hkey : ((entries ch m).filter p).Sublist (if c < m then ch c else []) := by
    induction m with
    | zero => exact List.Sublist.refl _
    | succ m ih =>
      have hsplit : entries ch (m + 1) = entries ch m ++ ch m := by
        simp [entries, List.range_succ, List.flatMap_append]
      rw [hsplit, List.filter_append]
      rcases Nat.lt_trichotomy c m with hlt | rfl | hgt
      · have hnil : (ch m).filter p = [] := by
          refine List.filter_eq_nil_iff.mpr fun x hx hpx => ?_
          have := h m x hx hpx
          omega
        rw [hnil, List.append_nil, if_pos (by omega)]
        rwa [if_pos hlt] at ih
      · rw [if_neg (Nat.lt_irrefl _)] at ih
        rw [List.sublist_nil.mp ih, List.nil_append, if_pos (Nat.lt_succ_self _)]
        exact List.filter_sublist
      · have hnil : (ch m).filter p = [] := by
          refine List.filter_eq_nil_iff.mpr fun x hx hpx => ?_
          have := h m x hx hpx
          omega
        rw [if_neg (by omega)] at ih
        rw [List.sublist_nil.mp ih, hnil]
        exact List.nil_sublist _
  refine hkey.trans ?_
  split
  · exact List.Sublist.refl _
  · exact List.nil_sublist _

/-- The order within a rebuilt chain: the last element put is the first. -/
theorem relink_apply (h : α → ℕ) (xs : List α) (b : ℕ) :
    relink h xs b = (xs.filter fun x => h x = b).reverse := by
  have key : ∀ (xs : List α) (ch : Chains α),
      xs.foldl (fun ch x => Chain.link ch (h x) x) ch b = (xs.filter fun x => h x = b).reverse ++ ch b := by
    intro xs
    induction xs with
    | nil => intro ch; rfl
    | cons x xs ih =>
      intro ch
      rw [List.foldl_cons, ih, List.filter_cons]
      by_cases hb : h x = b
      · subst hb
        simp [Chain.link]
      · simp [Chain.link, hb, Ne.symm hb]
  rw [relink, key]
  simp

/-- A rebuilt table agrees with what was put. -/
theorem agrees_relink (h : α → ℕ) (xs : List α) : Agrees (relink h xs) h xs := by
  intro b
  rw [relink_apply]
  exact List.reverse_perm _

end KnvProto.Chain
