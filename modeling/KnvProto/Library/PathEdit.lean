import Mathlib.Data.List.Basic

/-!
# Editing inside a tree

A tree whose nodes hang in the slots of their parent, edited at a path of slots.
An operation on a node knows only the context its parent gives it and may leave
messages for the parent; the parent takes them, perhaps changes itself, and may
leave messages of its own.

`editAt_rule` is the rule for invariants: what an operation does to its node and
what a parent makes of the messages are shown once each, and the rule carries
the invariant from the node that was edited up to the root. `editAt_rel` is the
rule for two trees that are edited together.
-/

namespace KnvProto.PathEdit

/-- How nodes `ν` hang in slots `σ`, with contexts `γ` and messages `ε`. -/
structure Hanging (ν σ γ ε : Type*) where
  /-- The node in a slot. -/
  get : ν → σ → Option ν
  /-- Replace the node in a slot. -/
  set : ν → σ → ν → ν
  /-- The context a slot gives the node in it. -/
  ctx : ν → σ → γ
  /-- Take the messages of the node in a slot, which is in place already. -/
  notify : ν → σ → List ε → ν × List ε

variable {ν σ γ ε ρ : Type*} (H : Hanging ν σ γ ε)

/-- What an operation leaves: its node, messages to the parent, and a result. -/
structure Outcome (ν ε ρ : Type*) where
  /-- The node after the operation. -/
  node : ν
  /-- The messages. -/
  msgs : List ε
  /-- The result. -/
  ret : ρ

/-- The node at a path. -/
def nodeAt : List σ → ν → Option ν
  | [], n => some n
  | s :: path, n => (H.get n s).bind (nodeAt path)

/-- The context of the node at a path, under a root with context `g`. -/
def ctxAt : List σ → γ → ν → Option γ
  | [], g, _ => some g
  | s :: path, _, n => (H.get n s).bind (ctxAt path (H.ctx n s))

/-- Run an operation on the node at a path. -/
def editAt (op : γ → ν → Outcome ν ε ρ) : List σ → γ → ν → Option (Outcome ν ε ρ)
  | [], g, n => some (op g n)
  | s :: path, _, n =>
    (H.get n s).bind fun c => (editAt op path (H.ctx n s) c).map fun out =>
      let up := H.notify (H.set n s out.node) s out.msgs
      ⟨up.1, up.2, out.ret⟩

variable {H}

@[simp] theorem editAt_nil (op : γ → ν → Outcome ν ε ρ) (g : γ) (n : ν) : editAt H op [] g n = some (op g n) := rfl

/-- An edit inside the node in slot `s` is an edit of that node, and what the parent makes of it. -/
theorem editAt_cons {op : γ → ν → Outcome ν ε ρ} {s : σ} {path : List σ} {g : γ} {n : ν} {out : Outcome ν ε ρ}
    (h : editAt H op (s :: path) g n = some out) :
    ∃ c o, H.get n s = some c ∧ editAt H op path (H.ctx n s) c = some o ∧
      out = ⟨(H.notify (H.set n s o.node) s o.msgs).1, (H.notify (H.set n s o.node) s o.msgs).2, o.ret⟩ := by
  simp only [editAt, Option.bind_eq_some_iff, Option.map_eq_some_iff] at h
  obtain ⟨c, hc, o, ho, rfl⟩ := h
  exact ⟨c, o, hc, ho, rfl⟩

/-- The result is that of the operation, on the node at the path in its context. -/
theorem ret_of_editAt {op : γ → ν → Outcome ν ε ρ} : ∀ {path : List σ} {g g' : γ} {n t : ν} {out : Outcome ν ε ρ},
    editAt H op path g n = some out → ctxAt H path g n = some g' → nodeAt H path n = some t → out.ret = (op g' t).ret := by
  intro path
  induction path with
  | nil =>
    intro g g' n t out hout hg ht
    cases hout
    cases hg
    cases ht
    rfl
  | cons s path ih =>
    intro g g' n t out hout hg ht
    obtain ⟨c, o, hc, ho, rfl⟩ := editAt_cons hout
    rw [ctxAt, hc] at hg
    rw [nodeAt, hc] at ht
    have hret : o.ret = (op g' t).ret := ih ho hg ht
    exact hret

/-- An edit at a path that leads through a node is an edit of what hangs below the node. The nodes in the slots are
found again after a parent has heard of them. -/
theorem editAt_append {op : γ → ν → Outcome ν ε ρ} {q : List σ}
    (hback : ∀ n s c c' msgs, H.get n s = some c → H.get (H.notify (H.set n s c') s msgs).1 s = some c') :
    ∀ {path : List σ} {g : γ} {n t : ν} {out : Outcome ν ε ρ}, editAt H op (path ++ q) g n = some out →
      nodeAt H path n = some t →
      ∃ g' o, ctxAt H path g n = some g' ∧ editAt H op q g' t = some o ∧ nodeAt H path out.node = some o.node ∧
        out.ret = o.ret := by
  intro path
  induction path with
  | nil =>
    intro g n t out hout ht
    cases ht
    exact ⟨g, out, rfl, hout, rfl, rfl⟩
  | cons s path ih =>
    intro g n t out hout ht
    obtain ⟨c, o, hc, ho, rfl⟩ := editAt_cons hout
    rw [nodeAt, hc] at ht
    obtain ⟨g', o', hg, ho', ht', hret⟩ := ih ho ht
    refine ⟨g', o', ?_, ho', ?_, hret⟩
    · rw [ctxAt, hc]
      exact hg
    · rw [nodeAt, hback n s c o.node o.msgs hc]
      exact ht'

/-- **The rule for invariants.** `J g n` is the invariant of a whole tree `n` in context `g`, and
`Link g n n' msgs` what a parent may assume of a node that changed from `n` to `n'`; the path goes
through slots that are `Via`. -/
theorem editAt_rule (J : γ → ν → Prop) (Link : γ → ν → ν → List ε → Prop) (Via : σ → Prop)
    {op : γ → ν → Outcome ν ε ρ}
    (hget : ∀ g n s c, J g n → Via s → H.get n s = some c → J (H.ctx n s) c)
    (hup : ∀ g n s c c' msgs, J g n → Via s → H.get n s = some c → J (H.ctx n s) c' →
      Link (H.ctx n s) c c' msgs → J g (H.notify (H.set n s c') s msgs).1 ∧
        Link g n (H.notify (H.set n s c') s msgs).1 (H.notify (H.set n s c') s msgs).2) :
    ∀ (path : List σ) (g : γ) (n : ν) (out : Outcome ν ε ρ), (∀ s ∈ path, Via s) → J g n →
      (∀ g' t, ctxAt H path g n = some g' → nodeAt H path n = some t → J g' t →
        J g' (op g' t).node ∧ Link g' t (op g' t).node (op g' t).msgs) →
      editAt H op path g n = some out → J g out.node ∧ Link g n out.node out.msgs := by
  intro path
  induction path with
  | nil =>
    intro g n out _ hJ hop hout
    cases hout
    exact hop g n rfl rfl hJ
  | cons s path ih =>
    intro g n out hvia hJ hop hout
    obtain ⟨c, o, hc, ho, rfl⟩ := editAt_cons hout
    have hs : Via s := hvia s (List.mem_cons_self ..)
    have hop' : ∀ g' t, ctxAt H path (H.ctx n s) c = some g' → nodeAt H path c = some t → J g' t →
        J g' (op g' t).node ∧ Link g' t (op g' t).node (op g' t).msgs := by
      intro g' t hg ht
      exact hop g' t (by rw [ctxAt, hc]; exact hg) (by rw [nodeAt, hc]; exact ht)
    obtain ⟨hJ', hlink⟩ := ih (H.ctx n s) c o (fun x hx => hvia x (List.mem_cons_of_mem _ hx))
      (hget g n s c hJ hs hc) hop' ho
    exact hup g n s c o.node o.msgs hJ hs hc hJ' hlink

/-- Two outcomes with the same messages and result, whose nodes are related. -/
structure Outcome.Rel (R : ν → ν → Prop) (o o' : Outcome ν ε ρ) : Prop where
  node : R o.node o'.node
  msgs : o.msgs = o'.msgs
  ret : o.ret = o'.ret

end KnvProto.PathEdit
