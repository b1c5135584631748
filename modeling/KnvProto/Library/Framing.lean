import Mathlib.Data.List.Basic

/-!
# Framing

A stream that is read frame by frame: a step parser takes one frame off the front
and leaves the rest, or stops. Where it takes exactly the frames of a grammar, the
place where it stops is a matter of the stream alone.
-/

namespace KnvProto.Framing

variable {α β ε : Type*}

/-- The step parser `p` takes exactly the frames of `G`. -/
structure Parses (p : List α → Except ε (β × List α)) (G : List α → Prop) : Prop where
  /-- What it takes is a frame. -/
  sound : ∀ {s : List α} {x : β} {rest : List α}, p s = .ok (x, rest) → ∃ f, s = f ++ rest ∧ G f
  /-- A frame is taken, whatever follows. -/
  complete : ∀ {f : List α} (rest : List α), G f → ∃ x, p (f ++ rest) = .ok (x, rest)

/-- A stream is frames of `G`, and then `tail`. -/
def Splits (G : List α → Prop) (s tail : List α) : Prop := ∃ fs : List (List α), (∀ f ∈ fs, G f) ∧ s = fs.flatten ++ tail

variable {p : List α → Except ε (β × List α)} {G : List α → Prop} {s tail tail' : List α}

theorem splits_refl (G : List α → Prop) (s : List α) : Splits G s s := ⟨[], by simp, rfl⟩

theorem Splits.cons {f rest : List α} (hf : G f) (h : Splits G rest tail) : Splits G (f ++ rest) tail := by
  obtain ⟨fs, hfs, rfl⟩ := h
  refine ⟨f :: fs, ?_, by simp⟩
  rintro g hg
  rcases List.mem_cons.mp hg with rfl | hg
  · exact hf
  · exact hfs g hg

/-- The frames before a place where the parser stops are all there is before any other such place. -/
theorem Splits.tail_unique (h : Parses p G) {e e' : ε} (he : p tail = .error e) (he' : p tail' = .error e')
    (hs : Splits G s tail) (hs' : Splits G s tail') : tail = tail' := by
  obtain ⟨fs, hfs, rfl⟩ := hs
  obtain ⟨fs', hfs', heq⟩ := hs'
  induction fs generalizing fs' with
  | nil =>
    cases fs' with
    | nil => simpa using heq
    | cons f fs' =>
      obtain ⟨x, hx⟩ := h.complete (fs'.flatten ++ tail') (hfs' f (List.mem_cons_self ..))
      simp only [List.flatten_nil, List.nil_append, List.flatten_cons, List.append_assoc] at heq
      rw [heq, hx] at he
      cases he
  | cons f fs ih =>
    obtain ⟨x, hx⟩ := h.complete (fs.flatten ++ tail) (hfs f (List.mem_cons_self ..))
    cases fs' with
    | nil =>
      simp only [List.flatten_nil, List.nil_append, List.flatten_cons, List.append_assoc] at heq
      rw [← heq, hx] at he'
      cases he'
    | cons f' fs' =>
      obtain ⟨x', hx'⟩ := h.complete (fs'.flatten ++ tail') (hfs' f' (List.mem_cons_self ..))
      simp only [List.flatten_cons, List.append_assoc] at heq
      rw [heq, hx'] at hx
      have hrest : fs'.flatten ++ tail' = fs.flatten ++ tail := congrArg Prod.snd (Except.ok.inj hx)
      exact ih (fun g hg => hfs g (List.mem_cons_of_mem _ hg)) fs' (fun g hg => hfs' g (List.mem_cons_of_mem _ hg))
        hrest.symm

/-- Where frames are not empty, the parser stops somewhere in every stream. -/
theorem exists_stop (h : Parses p G) (hne : ∀ f, G f → f ≠ []) (s : List α) :
    ∃ tail e, Splits G s tail ∧ p tail = .error e := by
  induction hn : s.length using Nat.strongRecOn generalizing s with
  | ind n ih =>
    cases hp : p s with
    | error e => exact ⟨s, e, splits_refl G s, hp⟩
    | ok r =>
      obtain ⟨x, rest⟩ := r
      obtain ⟨f, rfl, hf⟩ := h.sound hp
      have hpos : 0 < f.length := List.length_pos_iff.mpr (hne f hf)
      rw [List.length_append] at hn
      obtain ⟨tail, e, hsplit, he⟩ := ih rest.length (by omega) rest rfl
      exact ⟨tail, e, hsplit.cons hf, he⟩

end KnvProto.Framing
