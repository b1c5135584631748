import KnvProto.Library.Threaded

/-!
# Lists linked both ways

A list of cells, each of which leads to the next one and back to the one before it, where the first one leads
back to the last one: the end is found from the head, without a further pointer. `Ring` is such a list, and
`Tailed` one of which no more is known than what is needed to put another one behind it.
-/

namespace KnvProto.Linking

variable {α : Type*} {next next' prev prev' : α → Option α} {head head' p : Option α} {l l' pre post : List α} {a b : α}

/-! ### Forth -/

/-- What the last cell of a part leads to may be replaced. -/
theorem Threaded.reroute {rest : List α} (h : Threaded next head (pre ++ a :: rest)) (hsame : ∀ b ∈ pre, next' b = next b)
    (hl : Threaded next' (next' a) l) : Threaded next' head (pre ++ a :: l) := by
  induction pre generalizing head with
  | nil =>
    obtain ⟨rfl, -⟩ := threaded_cons_iff.mp h
    exact .cons hl
  | cons b pre ih =>
    obtain ⟨rfl, hrest⟩ := threaded_cons_iff.mp h
    have hb : next' b = next b := hsame b (List.mem_cons_self ..)
    exact .cons (hb ▸ ih hrest fun c hc => hsame c (List.mem_cons_of_mem _ hc))

/-- What a cell leads to is what is behind it. -/
theorem Threaded.behind : ∀ {pre : List α} {head : Option α}, Threaded next head (pre ++ a :: post) →
    Threaded next (next a) post
  | [], _, h => (threaded_cons_iff.mp h).2
  | _ :: _, _, h => (threaded_cons_iff.mp h).2.behind

theorem Threaded.head_eq_head? (h : Threaded next head l) : head = l.head? := by
  cases h <;> rfl

/-! ### Back -/

/-- Each cell leads back to the one before it; before the first one is `p`. -/
def Backed (prev : α → Option α) : Option α → List α → Prop
  | _, [] => True
  | p, a :: l => prev a = p ∧ Backed prev (some a) l

theorem Backed.congr : ∀ {l : List α} {p : Option α}, Backed prev p l → (∀ a ∈ l, prev' a = prev a) → Backed prev' p l
  | [], _, _, _ => trivial
  | a :: _, _, h, heq =>
    ⟨(heq a (List.mem_cons_self ..)).trans h.1, h.2.congr fun b hb => heq b (List.mem_cons_of_mem _ hb)⟩

/-- A list may be cut behind any of its cells. -/
theorem backed_append_iff : ∀ {pre : List α} {p : Option α},
    Backed prev p (pre ++ a :: l) ↔ Backed prev p (pre ++ [a]) ∧ Backed prev (some a) l
  | [], p => by simp [Backed]
  | b :: pre, p => by
    rw [List.cons_append, List.cons_append, Backed, Backed, backed_append_iff, and_assoc]

/-- What the first cell leads back to may be replaced. -/
theorem Backed.rehead (h : Backed prev p (a :: l)) (hl : ∀ b ∈ l, prev' b = prev b) : Backed prev' (prev' a) (a :: l) :=
  ⟨rfl, h.2.congr hl⟩

/-! ### Rings -/

/-- The cells of `l` from `head` on, linked both ways; the first one leads back to the last one. -/
structure Ring (next prev : α → Option α) (head : Option α) (l : List α) : Prop where
  /-- Forth. -/
  forth : Threaded next head l
  /-- Back. -/
  back : Backed prev l.getLast? l

@[simp] theorem ring_nil_iff : Ring next prev head [] ↔ head = none :=
  ⟨fun h => threaded_nil_iff.mp h.forth, fun h => ⟨threaded_nil_iff.mpr h, trivial⟩⟩

@[simp] theorem ring_none_iff : Ring next prev none l ↔ l = [] := by
  constructor
  · exact fun h => threaded_none_iff.mp h.forth
  · rintro rfl
    exact ⟨.nil, trivial⟩

/-- Only the links of the cells of the list matter. -/
theorem Ring.congr (h : Ring next prev head l) (hnext : ∀ a ∈ l, next' a = next a) (hprev : ∀ a ∈ l, prev' a = prev a) :
    Ring next' prev' head l := ⟨h.forth.congr hnext, h.back.congr hprev⟩

theorem Ring.nodup (h : Ring next prev head l) : l.Nodup := h.forth.nodup

/-- A ring with a head has a first cell and a last one, to which the first one leads back. -/
theorem Ring.ends (h : Ring next prev (some a) l) :
    ∃ pre last, l = pre ++ [last] ∧ l.head? = some a ∧ prev a = some last := by
  obtain ⟨l, rfl, -⟩ := h.forth.of_some
  obtain ⟨pre, last, hl⟩ := List.eq_nil_or_concat (a :: l) |>.resolve_left (List.cons_ne_nil _ _)
  rw [List.concat_eq_append] at hl
  have hback := h.back.1
  rw [hl, List.getLast?_concat] at hback
  exact ⟨pre, last, hl, rfl, hback⟩

/-- A cell that is the only one. -/
theorem Ring.single (hnext : next a = none) (hprev : prev a = some a) : Ring next prev (some a) [a] :=
  ⟨.cons (hnext ▸ .nil), hprev, trivial⟩

/-- A cell is put behind the last one. -/
theorem Ring.concat {last : α} (h : Ring next prev (some a) (pre ++ [last])) (hnext : ∀ c ∈ pre, next' c = next c)
    (hlast : next' last = some b) (hb : next' b = none) (hprev : ∀ c ∈ pre ++ [last], c ≠ a → prev' c = prev c)
    (ha : prev' a = some b) (hbp : prev' b = some last) : Ring next' prev' (some a) (pre ++ [last, b]) := by
  refine ⟨h.forth.reroute hnext (hlast ▸ .cons (hb ▸ .nil)), ?_⟩
  obtain ⟨l, hl, -⟩ := h.forth.of_some
  have hnot : ∀ c ∈ l, c ≠ a := by
    rintro c hc rfl
    exact (List.nodup_cons.mp (hl ▸ h.nodup)).1 hc
  have hback := h.back
  rw [hl] at hback hprev
  have hnew := hback.rehead fun c hc => hprev c (List.mem_cons_of_mem _ hc) (hnot c hc)
  rw [← hl, ha] at hnew
  have hgetLast : (pre ++ [last, b]).getLast? = some b := by
    rw [List.append_cons, List.getLast?_concat]
  rw [hgetLast, backed_append_iff]
  exact ⟨hnew, hbp, trivial⟩

/-- A cell is put before the first one. -/
theorem Ring.cons (h : Ring next prev (some a) l) (hnext : ∀ c ∈ l, next' c = next c) (hb : next' b = some a)
    (hprev : ∀ c ∈ l, c ≠ a → prev' c = prev c) (ha : prev' a = some b) (hbp : prev' b = prev a) :
    Ring next' prev' (some b) (b :: l) := by
  refine ⟨.cons (hb ▸ h.forth.congr hnext), ?_⟩
  obtain ⟨l, rfl, -⟩ := h.forth.of_some
  have hnot : ∀ c ∈ l, c ≠ a := by
    rintro c hc rfl
    exact (List.nodup_cons.mp h.nodup).1 hc
  have hnew := h.back.rehead fun c hc => hprev c (List.mem_cons_of_mem _ hc) (hnot c hc)
  rw [ha] at hnew
  rw [List.getLast?_cons_cons]
  exact ⟨hbp.trans h.back.1, hnew⟩

/-- The first cell is taken out. -/
theorem Ring.erase_head (h : Ring next prev head (a :: b :: l)) (hnext : ∀ c ∈ b :: l, next' c = next c)
    (hb : prev' b = prev a) (hprev : ∀ c ∈ l, prev' c = prev c) : Ring next' prev' (some b) (b :: l) := by
  obtain ⟨-, hforth⟩ := threaded_cons_iff.mp h.forth
  have hhead := (threaded_cons_iff.mp hforth).1
  refine ⟨(hhead ▸ hforth).congr hnext, ?_⟩
  have hnew := h.back.2.rehead hprev
  rw [hb, h.back.1, List.getLast?_cons_cons] at hnew
  exact hnew

/-- A cell between two others is taken out. -/
theorem Ring.erase_mid {c : α} (h : Ring next prev head (pre ++ a :: c :: b :: post))
    (hnext : ∀ d ∈ pre ++ b :: post, next' d = next d) (ha : next' a = some b)
    (hprev : ∀ d ∈ pre ++ a :: post, prev' d = prev d) (hb : prev' b = some a) :
    Ring next' prev' head (pre ++ a :: b :: post) := by
  have hbehind : Threaded next (some b) (b :: post) := by
    have hcell := h.forth.behind
    obtain ⟨-, hc⟩ := threaded_cons_iff.mp hcell
    rw [threaded_cons_iff] at hc
    exact .cons hc.2
  refine ⟨h.forth.reroute (fun d hd => hnext d (List.mem_append_left _ hd)) ?_, ?_⟩
  · rw [ha]
    exact hbehind.congr fun d hd => hnext d (List.mem_append_right _ hd)
  · have hlast : (pre ++ a :: b :: post).getLast? = (pre ++ a :: c :: b :: post).getLast? := by
      simp only [List.getLast?_append, List.getLast?_cons_cons]
    obtain ⟨hpre, -, -, hpost⟩ := backed_append_iff.mp h.back
    rw [hlast, backed_append_iff]
    refine ⟨hpre.congr fun d hd => hprev d ?_, hb, hpost.congr fun d hd => hprev d ?_⟩
    · rcases List.mem_append.mp hd with hd | hd
      · exact List.mem_append_left _ hd
      · exact List.mem_append_right _ (List.mem_singleton.mp hd ▸ List.mem_cons_self ..)
    · exact List.mem_append_right _ (List.mem_cons_of_mem _ hd)

/-- The last cell is taken out. -/
theorem Ring.erase_last {c : α} (h : Ring next prev (some b) (pre ++ [a, c])) (hnext : ∀ d ∈ pre, next' d = next d)
    (ha : next' a = none) (hprev : ∀ d ∈ pre ++ [a], d ≠ b → prev' d = prev d) (hb : prev' b = some a) :
    Ring next' prev' (some b) (pre ++ [a]) := by
  refine ⟨h.forth.reroute hnext (ha ▸ .nil), ?_⟩
  have hback := (backed_append_iff.mp h.back).1
  have hhead : (pre ++ [a]).head? = some b := by
    have hhead := h.forth.head_eq_head?
    cases pre with
    | nil => exact hhead.symm
    | cons d pre => exact hhead.symm
  obtain ⟨l, hl⟩ : ∃ l, pre ++ [a] = b :: l := by
    cases hpre : pre ++ [a] with
    | nil => exact absurd hpre (List.append_ne_nil_of_right_ne_nil _ (List.cons_ne_nil _ _))
    | cons d l =>
      rw [hpre] at hhead
      cases hhead
      exact ⟨l, rfl⟩
  have hnot : ∀ d ∈ l, d ≠ b := by
    have hnd : (pre ++ [a]).Nodup := h.nodup.sublist (List.append_cons pre a [c] ▸ List.sublist_append_left _ _)
    rintro d hd rfl
    exact (List.nodup_cons.mp (hl ▸ hnd)).1 hd
  rw [hl] at hback hprev
  have hnew := hback.rehead fun d hd => hprev d (List.mem_cons_of_mem _ hd) (hnot d hd)
  rw [List.getLast?_concat, hl, ← hb]
  exact hnew

/-- Where a cell is in a ring: it is the first one, or another one is before it. -/
theorem Ring.place (h : Ring next prev head l) (ha : a ∈ l) :
    (head = some a ∧ ∃ post, l = a :: post ∧ next a = post.head?) ∨
      ∃ pre p post, l = pre ++ p :: a :: post ∧ head ≠ some a ∧ prev a = some p ∧ next a = post.head? := by
  obtain ⟨pre, post, rfl⟩ := List.append_of_mem ha
  have hnext : next a = post.head? := h.forth.behind.head_eq_head?
  rcases List.eq_nil_or_concat pre with rfl | ⟨pre, p, rfl⟩
  · exact .inl ⟨h.forth.head_eq_head?, post, rfl, hnext⟩
  · rw [List.concat_eq_append, List.append_assoc, List.singleton_append] at h ⊢
    refine .inr ⟨pre, p, post, rfl, fun hhead => ?_, (backed_append_iff.mp h.back).2.1, hnext⟩
    have hmem : a ∈ pre ++ [p] := by
      have hsame := hhead.symm.trans h.forth.head_eq_head?
      rw [List.append_cons, List.head?_append_of_ne_nil _ (by simp)] at hsame
      exact List.mem_of_mem_head? hsame.symm
    have hnd := h.nodup
    rw [List.append_cons] at hnd
    exact (List.nodup_append.mp hnd).2.2 a hmem a (List.mem_cons_self ..) rfl

/-! ### Lists with a known end -/

/-- The cells of `l` from `head` on, the first one of which leads back to the last one. -/
structure Tailed (next prev : α → Option α) (head : Option α) (l : List α) : Prop where
  /-- Forth. -/
  forth : Threaded next head l
  /-- The end. -/
  tail : ∀ a, head = some a → prev a = l.getLast?

theorem Tailed.empty : Tailed next prev none [] := ⟨.nil, nofun⟩

theorem Ring.tailed (h : Ring next prev head l) : Tailed next prev head l := by
  refine ⟨h.forth, ?_⟩
  rintro a rfl
  obtain ⟨l, rfl, -⟩ := h.forth.of_some
  exact h.back.1

theorem Tailed.congr (h : Tailed next prev head l) (hnext : ∀ a ∈ l, next' a = next a) (hprev : ∀ a ∈ l, prev' a = prev a) :
    Tailed next' prev' head l := by
  refine ⟨h.forth.congr hnext, ?_⟩
  rintro a rfl
  obtain ⟨l, rfl, -⟩ := h.forth.of_some
  exact (hprev a (List.mem_cons_self ..)).trans (h.tail a rfl)

/-- A list that is not empty has a last cell. -/
theorem Tailed.ends (h : Tailed next prev (some a) l) : ∃ pre last, l = pre ++ [last] ∧ prev a = some last := by
  obtain ⟨l, rfl, -⟩ := h.forth.of_some
  obtain ⟨pre, last, hl⟩ := List.eq_nil_or_concat (a :: l) |>.resolve_left (List.cons_ne_nil _ _)
  rw [List.concat_eq_append] at hl
  have htail := h.tail a rfl
  rw [hl, List.getLast?_concat] at htail
  exact ⟨pre, last, hl, htail⟩

/-- Another list is put behind the last cell. -/
theorem Tailed.splice {last : α} (h : Tailed next prev (some a) (pre ++ [last])) (h' : Tailed next prev head l)
    (hnext : ∀ c ∈ pre ++ l, next' c = next c) (hlast : next' last = head)
    (ha : prev' a = if head = none then some last else l.getLast?) : Tailed next' prev' (some a) (pre ++ last :: l) := by
  refine ⟨h.forth.reroute (fun c hc => hnext c (List.mem_append_left _ hc)) ?_, ?_⟩
  · rw [hlast]
    exact h'.forth.congr fun c hc => hnext c (List.mem_append_right _ hc)
  · intro b hb
    obtain rfl := Option.some.inj hb
    rw [ha, List.getLast?_append]
    cases h'.forth with
    | nil => rfl
    | cons _ => rw [if_neg (Option.some_ne_none _), List.getLast?_cons_cons, List.getLast?_cons]; rfl

end KnvProto.Linking
