import KnvProto.Tree.Remerged
import KnvProto.Tree.Reported

/-!
# What a query means

A query, said of encodings: a request is put to a message (`ask`), without nodes, an index,
expansions or sizes. A leaf of the request asks for a field as a whole. An inner field of it
gives the metas that are asked for, and what its children give of the children they suit;
and it gives back the part of the request for which there is nothing.

What is given is a part of the message (`within_ask`), and what is given back is a part of
the request. **What has been missing is missing** (`leftOver_of_ask`): given back as a request,
it gives nothing, and comes back.

## The model

The source goes through the children with a tag along a hash chain, or along the list; in
what order is left open here (`Tour`). It has been told of the keys of children only if a
child of the request has one.

`Tree.Asked` shows that this is what `GetSubTree` does.
-/

namespace KnvProto

open Varint

variable {r d e o s c f g : PbField} {fuel : ℕ} {ms cs : List PbField} {known single : Bool}

/-! ### Requests -/

/-- Is a child of a request for this child? It has its tag, and its key, if there is one. -/
def SuitsField (s c : PbField) : Prop := c.tag = s.tag ∧ ((fieldKey s).bytes ≠ [] → (fieldKey c).bytes = (fieldKey s).bytes)

instance (s c : PbField) : Decidable (SuitsField s c) := inferInstanceAs (Decidable (_ ∧ _))

/-- Does a meta of a request ask for the meta with its tag? -/
def asksFor (m : PbField) : Bool := m.tag != 1 && m.type == .varint && m.val.i64 != 0

/-- Has a child of a request a key? -/
def looksAtKeys (r : PbField) : Bool := (contentOf r).2.any fun s => (fieldKey s).bytes != []

/-- In what order the children that suit a child of a request are asked, if the keys of children are known or not. -/
abbrev Tour := Bool → PbField → PbField → List PbField

/-- A message of a key, metas and children, if there is more than the key. -/
def assemble (f : PbField) (key ms cs : List PbField) : Option PbField :=
  if ms = [] ∧ cs = [] then none else some (withContent f (key ++ ms) cs)

/-- What a child of a request gives. -/
def given (query : PbField → PbField → Option PbField × Option PbField) (tour : PbField → List PbField) (s : PbField) :
    List PbField := (tour s).filterMap fun c => (query s c).1

/-- What is missing of a child of a request. -/
def missing (noEmpty : Bool) (query : PbField → PbField → Option PbField × Option PbField)
    (tour : PbField → List PbField) (s : PbField) : List PbField :=
  if noEmpty then [] else if tour s = [] then [s] else (tour s).filterMap fun c => (query s c).2

/-- Two children of a request that no child suits both. -/
def ApartFields (s t : PbField) : Prop := s.tag = t.tag →
  (fieldKey s).bytes ≠ [] ∧ (fieldKey t).bytes ≠ [] ∧ (fieldKey s).bytes ≠ (fieldKey t).bytes

instance (s t : PbField) : Decidable (ApartFields s t) := inferInstanceAs (Decidable (_ → _))

/-- What a request is for can be told: no two metas have the same tag, no child suits two children of the request, and
a child of the request with a key, or any of them if they are to be `single`, suits at most one child. -/
def Answerable (single : Bool) : ℕ → PbField → PbField → Prop
  | 0, _, _ => True
  | fuel + 1, r, d => (contentOf r).2 ≠ [] → (contentOf d).2 ≠ [] →
      ((contentOf r).1.map (·.tag)).Nodup ∧ ((contentOf d).1.map (·.tag)).Nodup ∧ (contentOf r).2.Pairwise ApartFields ∧
        ∀ s ∈ (contentOf r).2, (single ∨ (fieldKey s).bytes ≠ [] → ((contentOf d).2.filter (SuitsField s)).length ≤ 1) ∧
          ∀ c ∈ (contentOf d).2, SuitsField s c → Answerable single fuel s c

/-- A tour goes to all children that suit, if a child of a request with a key suits at most one. -/
def Fair (tour : Tour) : Prop := ∀ k {d s}, Genuine d → Genuine s → (k = false → (fieldKey s).bytes = []) →
  ((fieldKey s).bytes ≠ [] → ((contentOf d).2.filter (SuitsField s)).length ≤ 1) →
  (tour k d s).Perm ((contentOf d).2.filter (SuitsField s))

/-! ### Parts -/

/-- A field is a part of another: it is the field, or has some of its metas and parts of some of its children. -/
inductive Within : PbField → PbField → Prop
  /-- The field. -/
  | whole {f : PbField} : Within f f
  /-- Some metas, and parts of some children. -/
  | part {f : PbField} {ms cs : List PbField} (of : PbField → PbField) : (∀ m ∈ ms, m ∈ (contentOf f).1) →
      (∀ c ∈ cs, of c ∈ (contentOf f).2) → (∀ c ∈ cs, Within c (of c)) → Within (withContent f ms cs) f

/-- What is assembled of parts is a part. -/
theorem Within.assemble {key : List PbField} (hkey : ∀ m ∈ key, m ∈ (contentOf f).1) (hms : ∀ m ∈ ms, m ∈ (contentOf f).1)
    (hcs : ∀ c ∈ cs, ∃ x ∈ (contentOf f).2, Within c x) (h : assemble f key ms cs = some o) : Within o f := by
  unfold KnvProto.assemble at h
  split at h
  · cases h
  · obtain rfl := Option.some.inj h
    refine .part (fun c => if hc : c ∈ cs then (hcs c hc).choose else c) (fun m hm => ?_) (fun c hc => ?_) fun c hc => ?_
    · exact (List.mem_append.mp hm).elim (hkey m) (hms m)
    · rw [dif_pos hc]
      exact (hcs c hc).choose_spec.1
    · rw [dif_pos hc]
      exact (hcs c hc).choose_spec.2

variable {tour : Tour} {noEmpty : Bool}

/-! ### Tours -/

/-- If no keys are looked at, the children of the request have none. -/
theorem key_of_not_looksAtKeys (h : looksAtKeys r = false) (hs : s ∈ (contentOf r).2) : (fieldKey s).bytes = [] := by
  by_contra hne
  have hany : looksAtKeys r = true := List.any_eq_true.mpr ⟨s, hs, bne_iff_ne.mpr hne⟩
  rw [h] at hany
  cases hany

theorem Fair.perm (htour : Fair tour) (hr : Genuine r) (hd : Genuine d) (h : Answerable single (fuel + 1) r d)
    (hdne : (contentOf d).2 ≠ []) (hs : s ∈ (contentOf r).2) :
    (tour (looksAtKeys r) d s).Perm ((contentOf d).2.filter (SuitsField s)) := by
  obtain ⟨-, -, -, hbelow⟩ := h (List.ne_nil_of_mem hs) hdne
  exact htour _ hd (hr.below.2 s hs).1 (fun hk => key_of_not_looksAtKeys hk hs) fun hk => (hbelow s hs).1 (.inr hk)

theorem Fair.mem (htour : Fair tour) (hr : Genuine r) (hd : Genuine d) (h : Answerable single (fuel + 1) r d)
    (hdne : (contentOf d).2 ≠ []) (hs : s ∈ (contentOf r).2) :
    c ∈ tour (looksAtKeys r) d s ↔ c ∈ (contentOf d).2 ∧ SuitsField s c := by
  rw [(htour.perm hr hd h hdne hs).mem_iff, List.mem_filter, decide_eq_true_iff]

/-- A tour for a child of a request that suits one child at most. -/
theorem Fair.eq (htour : Fair tour) (hd : Genuine d) (hs : Genuine s) (hk : known = false → (fieldKey s).bytes = [])
    (hone : ((contentOf d).2.filter (SuitsField s)).length ≤ 1) :
    tour known d s = (contentOf d).2.filter (SuitsField s) := by
  have hperm := htour known hd hs hk fun _ => hone
  generalize (contentOf d).2.filter (SuitsField s) = l at hperm hone
  match l with
  | [] => exact List.perm_nil.mp hperm
  | [c] => exact List.perm_singleton.mp hperm

/-- The requests that are left over are told apart. -/
theorem MissingAt.apart {fs : List PbField} (hfs : fs.Pairwise ApartFields) {miss : PbField → List PbField}
    (hlen : ∀ s ∈ fs, (miss s).length ≤ 1) (hsame : ∀ s ∈ fs, ∀ x ∈ miss s, SameField s x) :
    (fs.flatMap miss).Pairwise ApartFields := by
  refine List.pairwise_flatMap.mpr ⟨fun s hs => ?_, hfs.imp_of_mem fun {s t} hs ht hst x hx y hy => ?_⟩
  · have hone := hlen s hs
    generalize miss s = l at hone
    match l with
    | [] => exact .nil
    | [x] => exact List.pairwise_singleton ..
  · rw [ApartFields, (hsame s hs x hx).1, (hsame s hs x hx).2, (hsame t ht y hy).1, (hsame t ht y hy).2]
    exact hst

/-- What can be told with more fuel can be told with less. -/
theorem Answerable.mono : ∀ {fuel fuel' : ℕ} {r d : PbField}, fuel' ≤ fuel → Answerable single fuel r d →
    Answerable single fuel' r d := by
  intro fuel
  induction fuel with
  | zero =>
    intro fuel' r d hle _
    obtain rfl := Nat.le_zero.mp hle
    trivial
  | succ fuel ih =>
    intro fuel' r d hle h
    cases fuel' with
    | zero => trivial
    | succ fuel' =>
      intro hrne hdne
      obtain ⟨hrnd, hdnd, hap, hbelow⟩ := h hrne hdne
      exact ⟨hrnd, hdnd, hap, fun s hs =>
        ⟨(hbelow s hs).1, fun c hc hsuit => ih (Nat.le_of_succ_le_succ hle) ((hbelow s hs).2 c hc hsuit)⟩⟩

theorem Genuine.length_str_child (h : Genuine r) (hs : s ∈ (contentOf r).2) : s.val.str.length < r.val.str.length := by
  obtain ⟨-, hval, -⟩ := h.layout (List.ne_nil_of_mem hs)
  have hle : s.encode.length ≤ r.val.str.length := by
    rw [hval]
    exact length_encode_le_of_mem (List.mem_append_right _ hs)
  by_cases ht : s.type = .string
  · exact Nat.lt_of_lt_of_le (length_str_lt ht) hle
  · have hnil : s.val.str = [] := by
      have hn := congrArg (fun f : PbField => f.val.str) (h.below.2 s hs).1.norm
      rw [← hn]
      exact str_norm ht s.val
    rw [hnil]
    exact Nat.lt_of_lt_of_le (length_encode_pos' s) hle

end KnvProto
