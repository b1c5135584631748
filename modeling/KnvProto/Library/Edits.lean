import KnvProto.Library.PathEdit

/-!
# Procedures that edit a tree

A procedure walks a tree and edits as it goes: it does something to its node, goes into
the nodes in some slots and does the same there, and a parent takes the messages of a
node when the procedure comes back from it.

`Edit` is one step somewhere in a tree, all parents having heard of it, and `Edits` a
sequence of them. **A procedure in a slot is a sequence of steps of the parent**
(`Edits.inside`): where a parent hears of a node at last is no different from where it
hears of every step at once, if it knows the node by nothing that a step changes
(`Lawful`). What one step keeps (`Edit.rule`) all procedures keep (`Edits.rule`).

`Outcome.next` and `Outcome.each` put functions together that may fail.
-/

namespace KnvProto.PathEdit

variable {ν σ γ ε : Type*}

/-! ### Steps in a tree -/

/-- A step of a node, somewhere in a tree: `Step g n n' msgs` of the node itself, or inside the node in a slot that is
`Via`. -/
inductive Edit (H : Hanging ν σ γ ε) (Via : σ → Prop) (Step : γ → ν → ν → List ε → Prop) : γ → ν → ν → List ε → Prop
  /-- At the node. -/
  | here {g : γ} {n n' : ν} {msgs : List ε} : Step g n n' msgs → Edit H Via Step g n n' msgs
  /-- In the node in a slot, which the node then hears of. -/
  | inside {g : γ} {n c c' : ν} {s : σ} {msgs : List ε} : Via s → H.get n s = some c →
      Edit H Via Step (H.ctx n s) c c' msgs →
      Edit H Via Step g n (H.notify (H.set n s c') s msgs).1 (H.notify (H.set n s c') s msgs).2

/-- Steps in a tree, one after the other. -/
inductive Edits (H : Hanging ν σ γ ε) (Via : σ → Prop) (Step : γ → ν → ν → List ε → Prop) : γ → ν → ν → List ε → Prop
  /-- None. -/
  | done {g : γ} {n : ν} : Edits H Via Step g n n []
  /-- A step, and others. -/
  | cons {g : γ} {n n' n'' : ν} {msgs msgs' : List ε} : Edit H Via Step g n n' msgs → Edits H Via Step g n' n'' msgs' →
      Edits H Via Step g n n'' (msgs ++ msgs')

variable {H : Hanging ν σ γ ε} {Via : σ → Prop} {Step : γ → ν → ν → List ε → Prop} {g : γ} {n n' n'' c c' : ν} {s : σ}
  {msgs msgs' : List ε}

theorem Edits.one (h : Edit H Via Step g n n' msgs) : Edits H Via Step g n n' msgs := by
  have hcons := Edits.cons h .done
  rwa [List.append_nil] at hcons

theorem Edits.step (h : Step g n n' msgs) : Edits H Via Step g n n' msgs := .one (.here h)

theorem Edits.trans (h : Edits H Via Step g n n' msgs) (h' : Edits H Via Step g n' n'' msgs') :
    Edits H Via Step g n n'' (msgs ++ msgs') := by
  induction h with
  | done => exact h'
  | cons hone _ ih =>
    rw [List.append_assoc]
    exact .cons hone (ih h')

/-! ### What is kept -/

/-- **The rule for a step.** `J g n` is the invariant of a whole tree `n` in context `g`, and `Link g n n' msgs` what a
parent may assume of a node that changed from `n` to `n'`. -/
theorem Edit.rule (J : γ → ν → Prop) (Link : γ → ν → ν → List ε → Prop)
    (hget : ∀ g n s c, J g n → Via s → H.get n s = some c → J (H.ctx n s) c)
    (hup : ∀ g n s c c' msgs, J g n → Via s → H.get n s = some c → J (H.ctx n s) c' → Link (H.ctx n s) c c' msgs →
      J g (H.notify (H.set n s c') s msgs).1 ∧
        Link g n (H.notify (H.set n s c') s msgs).1 (H.notify (H.set n s c') s msgs).2)
    (hstep : ∀ g n n' msgs, J g n → Step g n n' msgs → J g n' ∧ Link g n n' msgs) (h : Edit H Via Step g n n' msgs) :
    J g n → J g n' ∧ Link g n n' msgs := by
  induction h with
  | here h => exact fun hJ => hstep _ _ _ _ hJ h
  | inside hvia hc _ ih =>
    intro hJ
    obtain ⟨hJ', hlink⟩ := ih (hget _ _ _ _ hJ hvia hc)
    exact hup _ _ _ _ _ _ hJ hvia hc hJ' hlink

/-- **The rule for procedures**: what every step keeps, they keep. -/
theorem Edits.rule (J : γ → ν → Prop) (Link : γ → ν → ν → List ε → Prop)
    (hget : ∀ g n s c, J g n → Via s → H.get n s = some c → J (H.ctx n s) c)
    (hup : ∀ g n s c c' msgs, J g n → Via s → H.get n s = some c → J (H.ctx n s) c' → Link (H.ctx n s) c c' msgs →
      J g (H.notify (H.set n s c') s msgs).1 ∧
        Link g n (H.notify (H.set n s c') s msgs).1 (H.notify (H.set n s c') s msgs).2)
    (hstep : ∀ g n n' msgs, J g n → Step g n n' msgs → J g n' ∧ Link g n n' msgs) (h : Edits H Via Step g n n' msgs) :
    J g n → J g n' := by
  induction h with
  | done => exact id
  | cons hone _ ih => exact fun hJ => ih (hone.rule J Link hget hup hstep hJ).1

/-- What a procedure makes of a node, where what a parent may assume is passed on from step to step. -/
theorem Edits.link (J : γ → ν → Prop) (Link : γ → ν → ν → List ε → Prop) (hrefl : ∀ g n, Link g n n [])
    (htrans : ∀ g n n' n'' msgs msgs', Link g n n' msgs → Link g n' n'' msgs' → Link g n n'' (msgs ++ msgs'))
    (hget : ∀ g n s c, J g n → Via s → H.get n s = some c → J (H.ctx n s) c)
    (hup : ∀ g n s c c' msgs, J g n → Via s → H.get n s = some c → J (H.ctx n s) c' → Link (H.ctx n s) c c' msgs →
      J g (H.notify (H.set n s c') s msgs).1 ∧
        Link g n (H.notify (H.set n s c') s msgs).1 (H.notify (H.set n s c') s msgs).2)
    (hstep : ∀ g n n' msgs, J g n → Step g n n' msgs → J g n' ∧ Link g n n' msgs) (h : Edits H Via Step g n n' msgs) :
    J g n → J g n' ∧ Link g n n' msgs := by
  induction h with
  | done => exact fun hJ => ⟨hJ, hrefl _ _⟩
  | cons hone _ ih =>
    intro hJ
    obtain ⟨hJ', hlink⟩ := hone.rule J Link hget hup hstep hJ
    obtain ⟨hJ'', hlink'⟩ := ih hJ'
    exact ⟨hJ'', htrans _ _ _ _ _ _ hlink hlink'⟩

/-! ### Procedures in a slot -/

/-- A parent knows the nodes in its slots by what they have in common with themselves: nodes that are `Same` are taken
alike. -/
structure Lawful (H : Hanging ν σ γ ε) (Same : ν → ν → Prop) : Prop where
  refl : ∀ n, Same n n
  trans : ∀ {n n' n''}, Same n n' → Same n' n'' → Same n n''
  /-- The node is found again after the parent has heard of it. -/
  back : ∀ {n s c c'} msgs, H.get n s = some c → Same c c' → H.get (H.notify (H.set n s c') s msgs).1 s = some c'
  /-- It has the same context. -/
  ctx : ∀ {n s c c'} msgs, H.get n s = some c → Same c c' → H.ctx (H.notify (H.set n s c') s msgs).1 s = H.ctx n s
  /-- The parent remains the same, too. -/
  up : ∀ {n s c c'} msgs, H.get n s = some c → Same c c' → Same n (H.notify (H.set n s c') s msgs).1
  /-- No messages change nothing. -/
  quiet : ∀ {n s c}, H.get n s = some c → H.notify (H.set n s c) s [] = (n, [])
  /-- Messages may be taken one after the other. -/
  append : ∀ {n s c c' c''} (msgs msgs'), H.get n s = some c → Same c c' → Same c' c'' →
    H.notify (H.set n s c'') s (msgs ++ msgs') =
      ((H.notify (H.set (H.notify (H.set n s c') s msgs).1 s c'') s msgs').1,
        (H.notify (H.set n s c') s msgs).2 ++ (H.notify (H.set (H.notify (H.set n s c') s msgs).1 s c'') s msgs').2)

variable {Same : ν → ν → Prop}

/-- Steps that leave a node the same do so in a tree. -/
theorem Edit.same (hH : Lawful H Same) (hstep : ∀ g n n' msgs, Step g n n' msgs → Same n n')
    (h : Edit H Via Step g n n' msgs) : Same n n' := by
  induction h with
  | here h => exact hstep _ _ _ _ h
  | inside _ hget _ ih => exact hH.up _ hget ih

theorem Edits.same (hH : Lawful H Same) (hstep : ∀ g n n' msgs, Step g n n' msgs → Same n n')
    (h : Edits H Via Step g n n' msgs) : Same n n' := by
  induction h with
  | done => exact hH.refl _
  | cons hone _ ih => exact hH.trans (hone.same hH hstep) ih

/-- **A procedure in a slot is a sequence of steps of the parent.** -/
theorem Edits.inside (hH : Lawful H Same) (hstep : ∀ g n n' msgs, Step g n n' msgs → Same n n')
    (h : Edits H Via Step (H.ctx n s) c c' msgs) (hvia : Via s) (hc : H.get n s = some c) :
    Edits H Via Step g n (H.notify (H.set n s c') s msgs).1 (H.notify (H.set n s c') s msgs).2 := by
  obtain ⟨q, hq⟩ : ∃ q, q = H.ctx n s := ⟨_, rfl⟩
  rw [← hq] at h
  induction h generalizing n with
  | done =>
    rw [hH.quiet hc]
    exact .done
  | @cons c c₁ c' msgs msgs' hone hrest ih =>
    subst hq
    have hsame := hone.same hH hstep
    rw [hH.append msgs msgs' hc hsame (hrest.same hH hstep)]
    -- the parent hears of the first step, and has the same slot with the same context after it
    exact .cons (.inside hvia hc hone) (ih (hH.back msgs hc hsame) (hH.ctx msgs hc hsame).symm)

/-- A function at a path that is a procedure is one of the whole tree. -/
theorem Edits.of_editAt {ρ : Type*} (hH : Lawful H Same) (hstep : ∀ g n n' msgs, Step g n n' msgs → Same n n')
    {op : γ → ν → Outcome ν ε ρ} : ∀ {path : List σ} {g : γ} {n : ν} {out : Outcome ν ε ρ},
    (∀ s ∈ path, Via s) → editAt H op path g n = some out →
    (∀ g' t, ctxAt H path g n = some g' → nodeAt H path n = some t → Edits H Via Step g' t (op g' t).node (op g' t).msgs) →
    Edits H Via Step g n out.node out.msgs := by
  intro path
  induction path with
  | nil =>
    intro g n out _ hout hop
    cases hout
    exact hop g n rfl rfl
  | cons s path ih =>
    intro g n out hvia hout hop
    obtain ⟨c, o, hc, ho, rfl⟩ := editAt_cons hout
    have hbelow : Edits H Via Step (H.ctx n s) c o.node o.msgs := by
      refine ih (fun x hx => hvia x (List.mem_cons_of_mem _ hx)) ho fun g' t hg ht => hop g' t ?_ ?_
      · rw [ctxAt, hc]
        exact hg
      · rw [nodeAt, hc]
        exact ht
    exact hbelow.inside hH hstep (hvia s (List.mem_cons_self ..)) hc

/-! ### Functions that may fail -/

namespace Outcome

variable {κ α β : Type*}

/-- Go on with another function, unless the first has failed. -/
def next (o : Outcome ν ε (Except κ α)) (f : ν → Outcome ν ε (Except κ β)) : Outcome ν ε (Except κ β) :=
  match o.ret with
  | .error e => ⟨o.node, o.msgs, .error e⟩
  | .ok _ => ⟨(f o.node).node, o.msgs ++ (f o.node).msgs, (f o.node).ret⟩

/-- A loop that ends at the first failure. -/
def each {ι : Type*} (done : β) (f : ι → ν → Outcome ν ε (Except κ β)) : List ι → ν → Outcome ν ε (Except κ β)
  | [], n => ⟨n, [], .ok done⟩
  | x :: xs, n => (f x n).next (each done f xs)

theorem next_error {o : Outcome ν ε (Except κ α)} {e : κ} (h : o.ret = .error e) (f : ν → Outcome ν ε (Except κ β)) :
    o.next f = ⟨o.node, o.msgs, .error e⟩ := by
  rw [next, h]

theorem next_ok {o : Outcome ν ε (Except κ α)} {a : α} (h : o.ret = .ok a) (f : ν → Outcome ν ε (Except κ β)) :
    o.next f = ⟨(f o.node).node, o.msgs ++ (f o.node).msgs, (f o.node).ret⟩ := by
  rw [next, h]

/-- A procedure that goes on with another one, where `P` holds in between and in the end. -/
theorem edits_next {P : ν → Prop} {o : Outcome ν ε (Except κ α)} {f : ν → Outcome ν ε (Except κ β)}
    (h : P o.node ∧ Edits H Via Step g n o.node o.msgs)
    (hf : P o.node → P (f o.node).node ∧ Edits H Via Step g o.node (f o.node).node (f o.node).msgs) :
    P (o.next f).node ∧ Edits H Via Step g n (o.next f).node (o.next f).msgs := by
  unfold next
  split
  · exact h
  · exact ⟨(hf h.1).1, h.2.trans (hf h.1).2⟩

/-- **A loop of procedures**: `P` is what every turn needs, and keeps. -/
theorem edits_each {ι : Type*} {done : β} {f : ι → ν → Outcome ν ε (Except κ β)} {P : ν → Prop} : ∀ {l : List ι} {n : ν},
    (∀ x ∈ l, ∀ n, P n → P (f x n).node ∧ Edits H Via Step g n (f x n).node (f x n).msgs) → P n →
    P (each done f l n).node ∧ Edits H Via Step g n (each done f l n).node (each done f l n).msgs := by
  intro l
  induction l with
  | nil => exact fun _ hn => ⟨hn, .done⟩
  | cons x l ih =>
    intro n hf hn
    exact edits_next (hf x (List.mem_cons_self ..) n hn) (ih fun y hy => hf y (List.mem_cons_of_mem _ hy))

end Outcome

end KnvProto.PathEdit
