import KnvProto.Node.Ht

/-!
# The order of a chain

`put` puts a node at the head of its chain, and a rebuild walks the old chains from
their heads and does the same: it turns them around. Of an index that nodes have
been put into one after the other, `arranged` says in what order the chains have
them: the latest first up to 32, then the first 32 in their own order, and once
there are more than 256 the first 32 turned around again (`sublist_arranged`).

`arranged_iff` says when some of the nodes are met in the order in which they were
put.
-/

namespace KnvProto.KnvHt

open Chain

/-- An index that nodes are put into, one after the other. -/
def fill (look : Look) (as : List ℕ) : KnvHt := as.foldl (fun ht a => ht.put look a) {}

/-- The order in which the chains of a filled index have its nodes. -/
def arranged (as : List ℕ) : List ℕ :=
  if as.length ≤ 32 then as.reverse
  else if as.length ≤ 256 then (as.drop 32).reverse ++ as.take 32
  else (as.drop 256).reverse ++ ((as.take 32).reverse ++ (as.take 256).drop 32)

/-- The size of a filled index. -/
def sizeFor (nr : ℕ) : ℕ := if nr ≤ 32 then 32 else if nr ≤ 256 then 256 else 8192

/-! ### Filling -/

/-- There is a rebuild at 32 and at 256 nodes, and the size is that of before otherwise. -/
theorem sizeFor_succ {nr : ℕ} (h : ¬(nr = 32 ∨ nr = 256)) : sizeFor (nr + 1) = sizeFor nr := by
  unfold sizeFor
  split_ifs <;> omega

theorem full_of_sizeFor {nr : ℕ} (hlt : sizeFor nr < nr + 1) (hbig : sizeFor nr < 8192) : nr = 32 ∨ nr = 256 := by
  unfold sizeFor at hlt hbig
  split_ifs at hlt hbig <;> omega

/-- Another node is put in front of what there is, which has been turned around if it was one too many. -/
theorem arranged_concat (as : List ℕ) (a : ℕ) :
    arranged (as ++ [a]) =
      a :: if as.length = 32 ∨ as.length = 256 then (arranged as).reverse else arranged as := by
  unfold arranged
  rw [List.length_append, List.length_singleton]
  have hfirst : 32 < as.length → (as ++ [a]).take 32 = as.take 32 := fun h => List.take_append_of_le_length (by omega)
  rcases Nat.lt_trichotomy as.length 32 with hlt | heq | hgt
  · rw [if_pos (show as.length + 1 ≤ 32 by omega), if_neg (show ¬(as.length = 32 ∨ as.length = 256) by omega),
      if_pos (show as.length ≤ 32 by omega), List.reverse_append]
    rfl
  · rw [if_neg (show ¬as.length + 1 ≤ 32 by omega), if_pos (show as.length + 1 ≤ 256 by omega), if_pos (.inl heq),
      if_pos (show as.length ≤ 32 by omega), List.drop_left' heq, List.take_left' heq, List.reverse_reverse]
    rfl
  · rw [if_neg (show ¬as.length + 1 ≤ 32 by omega), if_neg (show ¬as.length ≤ 32 by omega), hfirst hgt]
    rcases Nat.lt_trichotomy as.length 256 with hlt | heq | hgt'
    · rw [if_pos (show as.length + 1 ≤ 256 by omega), if_neg (show ¬(as.length = 32 ∨ as.length = 256) by omega),
        if_pos (show as.length ≤ 256 by omega), List.drop_append_of_le_length (by omega), List.reverse_append]
      rfl
    · rw [if_neg (show ¬as.length + 1 ≤ 256 by omega), if_pos (.inr heq), if_pos (show as.length ≤ 256 by omega),
        List.drop_left' heq, List.take_left' heq, List.reverse_append, List.reverse_reverse]
      rfl
    · rw [if_neg (show ¬as.length + 1 ≤ 256 by omega), if_neg (show ¬(as.length = 32 ∨ as.length = 256) by omega),
        if_neg (show ¬as.length ≤ 256 by omega), List.take_append_of_le_length (by omega),
        List.drop_append_of_le_length (by omega), List.reverse_append]
      rfl

/-- What holds of an index that nodes have been put into. -/
structure Filled (ht : KnvHt) (look : Look) (as : List ℕ) : Prop where
  agrees : ht.Agrees look as
  size : ht.sz = sizeFor as.length
  chain : ∀ b, (ht.chain b).Sublist (arranged as)

variable {ht : KnvHt} {look look' : Look} {as : List ℕ}

theorem filled_empty (look : Look) : Filled {} look [] := ⟨agrees_empty look, rfl, fun _ => List.nil_sublist _⟩

/-- A rebuild turns the chains around. -/
theorem Filled.increase (h : Filled ht look as) (hlt : ht.sz < 8192) (b : ℕ) :
    ((ht.increase look).chain b).Sublist (arranged as).reverse := by
  unfold KnvHt.increase
  rw [if_neg (by omega)]
  simp only
  rw [relink_apply]
  refine List.Sublist.reverse (List.Sublist.trans (filter_entries_sublist (c := b &&& (ht.sz - 1)) ?_ _) (h.chain _))
  intro b' x hx hb
  have hold : bucketOf look ht.sz x = b' := (h.agrees.chain.mem.mp hx).2
  have hnew := of_decide_eq_true hb
  rw [← hold, ← hnew]
  simp only [bucketOf, getKeyhash]
  -- the larger mask covers the smaller one
  rw [Nat.and_assoc]
  congr 1
  rw [h.size] at hlt ⊢
  unfold sizeFor at hlt ⊢
  split
  · decide
  split
  · decide
  · next h1 h2 =>
    rw [if_neg h1, if_neg h2] at hlt
    omega

theorem Filled.put (h : Filled ht look as) (a : ℕ) : Filled (ht.put look a) look (as ++ [a]) := by
  have hnr : ht.nr = as.length := h.agrees.nr
  have hsize := h.size
  have hagrees := (h.agrees.put a).perm (@List.perm_append_comm _ [a] as)
  -- the index that has room for the node
  have hroom : (ht.room look).sz = sizeFor (as.length + 1) ∧ ∀ b, ((ht.room look).chain b).Sublist
      (if as.length = 32 ∨ as.length = 256 then (arranged as).reverse else arranged as) := by
    unfold KnvHt.room
    rw [hnr, hsize]
    by_cases hfull : as.length = 32 ∨ as.length = 256
    · have hlt : sizeFor as.length < as.length + 1 ∧ sizeFor as.length < 8192 := by
        rcases hfull with h | h <;> rw [h] <;> decide
      rw [if_pos hlt.1, if_pos hfull]
      refine ⟨?_, h.increase (hsize ▸ hlt.2)⟩
      rw [KnvHt.increase, if_neg (by rw [hsize]; exact Nat.not_le.mpr hlt.2)]
      simp only
      rw [hsize]
      rcases hfull with h | h <;> rw [h] <;> decide
    · rw [if_neg hfull, sizeFor_succ hfull, ← hsize]
      split
      · next hlt =>
        have hbig : 8192 ≤ ht.sz := by
          by_contra hsmall
          rw [hsize] at hlt hsmall
          exact hfull (full_of_sizeFor hlt (Nat.not_le.mp hsmall))
        rw [KnvHt.increase, if_pos hbig]
        exact ⟨rfl, h.chain⟩
      · exact ⟨rfl, h.chain⟩
  refine ⟨hagrees, ?_, fun b => ?_⟩
  · rw [List.length_append, List.length_singleton]
    exact hroom.1
  · rw [arranged_concat]
    simp only [KnvHt.put, link]
    split
    · exact (hroom.2 _).cons_cons a
    · exact (hroom.2 b).cons a

theorem fill_concat (look : Look) (as : List ℕ) (a : ℕ) : fill look (as ++ [a]) = (fill look as).put look a := by
  rw [fill, List.foldl_append]
  rfl

/-- **The order in which a filled index has its nodes.** -/
theorem filled_fill (look : Look) (as : List ℕ) : Filled (fill look as) look as := by
  induction as using List.reverseRecOn with
  | nil => exact filled_empty look
  | append_singleton as a ih =>
    rw [fill_concat]
    exact ih.put a

/-- Only what is read of the nodes themselves matters. -/
theorem fill_congr (h : ∀ a ∈ as, look a = look' a) : fill look as = fill look' as := by
  induction as using List.reverseRecOn with
  | nil => rfl
  | append_singleton as a ih =>
    have hold := fun x hx => h x (List.mem_append_left _ hx)
    rw [fill_concat, fill_concat, ← ih hold]
    unfold KnvHt.put
    rw [(filled_fill look as).agrees.room_congr hold]
    simp only [bucketOf, h a (List.mem_append_right _ (List.mem_singleton_self a))]

/-! ### Some of the nodes, in the order in which they were put -/

/-- Some nodes of an index are met in the order in which they were put: there is one at the most; or there has been one
rebuild, and they were put before it; or two, they were put before the second, and one at the most before the first. -/
def InTurn (p : ℕ → Bool) (as : List ℕ) : Prop :=
  (as.filter p).length ≤ 1 ∨ 32 < as.length ∧ as.length ≤ 256 ∧ (as.drop 32).filter p = [] ∨
    256 < as.length ∧ (as.drop 256).filter p = [] ∧ ((as.take 32).filter p).length ≤ 1

theorem reverse_eq_self_iff {l : List ℕ} (h : l.Nodup) : l.reverse = l ↔ l.length ≤ 1 := by
  constructor
  · intro hrev
    match l, h, hrev with
    | [], _, _ => exact Nat.zero_le _
    | [_], _, _ => exact Nat.le_refl _
    | a :: b :: l, h, hrev =>
      exfalso
      rw [List.reverse_cons] at hrev
      have hlast : (a :: b :: l).getLast? = some a := by rw [← hrev, List.getLast?_concat]
      rw [List.getLast?_cons_cons] at hlast
      exact (List.nodup_cons.mp h).1 (List.mem_of_getLast? hlast)
  · intro hle
    match l, hle with
    | [], _ => rfl
    | [_], _ => rfl
    | _ :: _ :: _, hle => simp at hle

/-- Some elements come first although they were put last. -/
theorem reverse_append_eq_iff {l m m' : List ℕ} (hnd : (m ++ l).Nodup) (hm : m'.Perm m) :
    l.reverse ++ m' = m ++ l ↔ l = [] ∧ m' = m ∨ m = [] ∧ l.length ≤ 1 := by
  obtain ⟨hndm, hndl, hdis⟩ := List.nodup_append.mp hnd
  cases l with
  | nil =>
    rw [List.reverse_nil, List.nil_append, List.append_nil]
    exact ⟨fun h => .inl ⟨rfl, h⟩, fun h => h.elim (fun h => h.2) fun h => by rw [h.1] at hm ⊢; exact hm.eq_nil⟩
  | cons a l =>
    cases m with
    | nil =>
      obtain rfl := hm.eq_nil
      rw [List.append_nil, List.nil_append, reverse_eq_self_iff hndl]
      simp
    | cons x m =>
      refine ⟨fun h => ?_, fun h => ?_⟩
      · exfalso
        have hhead : ((a :: l).reverse ++ m').head? = some x := by rw [h]; rfl
        rw [List.head?_append_of_ne_nil _ (by simp)] at hhead
        exact hdis x (List.mem_cons_self ..) x (List.mem_reverse.mp (List.mem_of_head? hhead)) rfl
      · rcases h with ⟨h, -⟩ | ⟨h, -⟩ <;> cases h

/-- **When the chains have some of the nodes in the order in which they were put.** -/
theorem arranged_iff {p : ℕ → Bool} (h : as.Nodup) : (arranged as).filter p = as.filter p ↔ InTurn p as := by
  have hsplit : ∀ k, as.filter p = (as.take k).filter p ++ (as.drop k).filter p := fun k => by
    rw [← List.filter_append, List.take_append_drop]
  have hnd : ∀ k, ((as.take k).filter p ++ (as.drop k).filter p).Nodup := fun k => hsplit k ▸ h.filter _
  unfold arranged InTurn
  split
  · next hle =>
    rw [List.filter_reverse, reverse_eq_self_iff (h.filter _)]
    exact ⟨.inl, fun h => h.elim id fun h => h.elim (fun h => by omega) fun h => by omega⟩
  split
  · next h1 h2 =>
    rw [List.filter_append, List.filter_reverse, hsplit 32, reverse_append_eq_iff (hnd 32) (List.Perm.refl _),
      List.length_append]
    constructor
    · rintro (⟨hnil, -⟩ | ⟨hnil, hle⟩)
      · exact .inr (.inl ⟨by omega, h2, hnil⟩)
      · exact .inl (by rw [hnil]; simpa using hle)
    · rintro (hle | ⟨-, -, hnil⟩ | ⟨hgt, -⟩)
      · rcases Nat.eq_zero_or_pos ((as.drop 32).filter p).length with hz | hpos
        · exact .inl ⟨List.length_eq_zero_iff.mp hz, rfl⟩
        · exact .inr ⟨List.length_eq_zero_iff.mp (by omega), by omega⟩
      · exact .inl ⟨hnil, rfl⟩
      · omega
  · next h1 h2 =>
    have htake : (as.take 256).filter p = (as.take 32).filter p ++ ((as.take 256).drop 32).filter p := by
      rw [← List.filter_append]
      congr 1
      conv_lhs => rw [← List.take_append_drop 32 (as.take 256)]
      rw [List.take_take]
      rfl
    have hnd₁ : ((as.take 32).filter p).Nodup := (h.sublist (List.take_sublist ..)).filter _
    rw [List.filter_append, List.filter_append, List.filter_reverse, List.filter_reverse, hsplit 256,
      reverse_append_eq_iff (hnd 256) (by rw [htake]; exact (List.reverse_perm _).append_right _), List.length_append,
      htake, List.append_left_inj, reverse_eq_self_iff hnd₁, List.length_append, List.append_eq_nil_iff]
    constructor
    · rintro (⟨hnil, hle⟩ | ⟨⟨hnil, hnil'⟩, hle⟩)
      · exact .inr (.inr ⟨by omega, hnil, hle⟩)
      · exact .inl (by rw [hnil, hnil']; simpa using hle)
    · rintro (hle | ⟨-, hle, -⟩ | ⟨-, hnil, hle⟩)
      · rcases Nat.eq_zero_or_pos ((as.drop 256).filter p).length with hz | hpos
        · exact .inl ⟨List.length_eq_zero_iff.mp hz, by omega⟩
        · exact .inr ⟨⟨List.length_eq_zero_iff.mp (by omega), List.length_eq_zero_iff.mp (by omega)⟩, by omega⟩
      · omega
      · exact .inl ⟨hnil, hle⟩

theorem arranged_perm (as : List ℕ) : (arranged as).Perm as := by
  unfold arranged
  split
  · exact List.reverse_perm as
  split
  · exact (List.perm_append_comm.trans ((List.reverse_perm _).append_left _)).trans
      (List.Perm.of_eq (List.take_append_drop ..))
  · have hsplit : (as.take 32).reverse ++ (as.take 256).drop 32 |>.Perm (as.take 256) := by
      refine ((List.reverse_perm _).append_right _).trans (List.Perm.of_eq ?_)
      conv_rhs => rw [← List.take_append_drop 32 (as.take 256), List.take_take]
      rfl
    exact (((List.reverse_perm _).append hsplit).trans List.perm_append_comm).trans
      (List.Perm.of_eq (List.take_append_drop ..))

/-- Some elements of a list, in its order, are those that are among them. -/
theorem eq_filter_of_sublist {xs ys : List ℕ} (hnd : ys.Nodup) (h : xs.Sublist ys) :
    xs = ys.filter fun a => decide (a ∈ xs) := by
  have hself : xs.filter (fun a => decide (a ∈ xs)) = xs := List.filter_eq_self.mpr fun a ha => decide_eq_true ha
  have hsub := h.filter fun a => decide (a ∈ xs)
  rw [hself] at hsub
  refine hsub.eq_of_length_le ((List.subperm_of_subset (hnd.filter _) fun a ha => ?_).length_le)
  exact of_decide_eq_true (List.mem_filter.mp ha).2

/-- **Nodes that the chains have in the order in which they were put**, of those that are met in a chain. -/
theorem sublist_iff_inTurn {xs : List ℕ} (hnd : as.Nodup) (h : xs.Sublist (arranged as)) :
    xs.Sublist as ↔ InTurn (fun a => decide (a ∈ xs)) as := by
  rw [← arranged_iff hnd, ← eq_filter_of_sublist ((arranged_perm as).nodup_iff.mpr hnd) h]
  exact ⟨eq_filter_of_sublist hnd, fun h => h ▸ List.filter_sublist⟩

end KnvProto.KnvHt
