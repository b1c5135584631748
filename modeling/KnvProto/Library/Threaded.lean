import Mathlib.Data.List.Basic
import Mathlib.Data.List.Nodup
import Mathlib.Data.List.Perm.Basic

/-!
# Lists threaded through links

A list of cells, each of which leads to the next one: what a head and a map of links
lead to, until there is no further link.
-/

namespace KnvProto.Linking

variable {α : Type*}

/-- Following the links from `head` on meets the cells of the list, one after the other. -/
inductive Threaded (next : α → Option α) : Option α → List α → Prop
  /-- There is no further link. -/
  | nil : Threaded next none []
  /-- A cell, and what it leads to. -/
  | cons {a : α} {l : List α} : Threaded next (next a) l → Threaded next (some a) (a :: l)

variable {next next' : α → Option α} {head : Option α} {l l' : List α}

@[simp] theorem threaded_nil_iff : Threaded next head [] ↔ head = none := by
  constructor
  · rintro ⟨⟩
    rfl
  · rintro rfl
    exact .nil

@[simp] theorem threaded_none_iff : Threaded next none l ↔ l = [] := by
  constructor
  · rintro ⟨⟩
    rfl
  · rintro rfl
    exact .nil

theorem threaded_cons_iff {a : α} : Threaded next head (a :: l) ↔ head = some a ∧ Threaded next (next a) l := by
  constructor
  · intro h
    cases h with
    | cons h => exact ⟨rfl, h⟩
  · rintro ⟨rfl, h⟩
    exact .cons h

/-- What a cell leads to is the list after it. -/
theorem Threaded.of_some {a : α} (h : Threaded next (some a) l) : ∃ l', l = a :: l' ∧ Threaded next (next a) l' := by
  cases h with
  | cons h => exact ⟨_, rfl, h⟩

/-- Only the links of the cells of the list matter. -/
theorem Threaded.congr (h : Threaded next head l) (heq : ∀ a ∈ l, next' a = next a) : Threaded next' head l := by
  induction h with
  | nil => exact .nil
  | @cons a l _ ih =>
    refine .cons ?_
    rw [heq a (List.mem_cons_self ..)]
    exact ih fun b hb => heq b (List.mem_cons_of_mem _ hb)

/-- The links lead to one list only. -/
theorem Threaded.unique (h : Threaded next head l) (h' : Threaded next head l') : l = l' := by
  induction h generalizing l' with
  | nil => exact (threaded_none_iff.mp h').symm
  | cons _ ih =>
    obtain ⟨l'', rfl, h''⟩ := h'.of_some
    rw [ih h'']

/-- From any cell of the list on, its end is met. -/
theorem Threaded.suffix {a : α} (h : Threaded next head l) (ha : a ∈ l) :
    ∃ l', Threaded next (some a) l' ∧ l' <:+ l := by
  induction h with
  | nil => exact absurd ha List.not_mem_nil
  | @cons b l h ih =>
    rcases List.mem_cons.mp ha with rfl | ha
    · exact ⟨_, .cons h, List.suffix_refl _⟩
    · obtain ⟨l', hl', hs⟩ := ih ha
      exact ⟨l', hl', hs.trans (List.suffix_cons ..)⟩

/-- No cell is met twice. -/
theorem Threaded.nodup (h : Threaded next head l) : l.Nodup := by
  induction h with
  | nil => exact List.nodup_nil
  | @cons a l h ih =>
    refine List.nodup_cons.mpr ⟨fun ha => ?_, ih⟩
    obtain ⟨l', hl', hs⟩ := h.suffix ha
    obtain rfl := hl'.unique (.cons h)
    exact absurd hs.length_le (Nat.not_succ_le_self _)

/-- A cell that leads to what the cell after it leads to skips that cell. -/
theorem Threaded.skip {p a : α} {post : List α} : ∀ {pre : List α} {head : Option α},
    Threaded next head (pre ++ p :: a :: post) → (∀ b, b ≠ p → next' b = next b) → next' p = next a →
      Threaded next' head (pre ++ p :: post) := by
  intro pre
  induction pre with
  | nil =>
    intro head h hother hp
    obtain ⟨rfl, h'⟩ := threaded_cons_iff.mp h
    obtain ⟨-, hpost⟩ := threaded_cons_iff.mp h'
    have hnot : p ∉ post := fun hmem => (List.nodup_cons.mp h.nodup).1 (List.mem_cons_of_mem _ hmem)
    refine .cons (hp ▸ hpost.congr fun b hb => hother b ?_)
    rintro rfl
    exact hnot hb
  | cons b pre ih =>
    intro head h hother hp
    obtain ⟨rfl, h'⟩ := threaded_cons_iff.mp h
    have hb : b ≠ p := by
      rintro rfl
      exact (List.nodup_cons.mp h.nodup).1 (List.mem_append_right _ (List.mem_cons_self ..))
    exact .cons (hother b hb ▸ ih h' hother hp)

/-- Two heads that lead to the same cells, in any order, are the same. -/
theorem Threaded.head_eq {head' : Option α} (h : Threaded next head l) (h' : Threaded next head' l') (hp : l'.Perm l) :
    head' = head := by
  cases h' with
  | nil =>
    obtain rfl := hp.nil_eq
    exact (threaded_nil_iff.mp h).symm
  | @cons a l' h' =>
    have ha : a ∈ l := hp.mem_iff.mp (List.mem_cons_self ..)
    obtain ⟨l'', hl'', hs⟩ := h.suffix ha
    obtain rfl := hl''.unique (.cons h')
    obtain rfl := hs.eq_of_length hp.length_eq
    exact ((threaded_cons_iff.mp h).1).symm

end KnvProto.Linking
