import TermGraph.Proofs.Rewriting.Custody
import TermGraph.Rewriting.Outermost

/-!
# What a parallel step comes to

A parallel step is made level by level: at a node, the way to rewrite at the root that is left open either gives
a reduct or does not, and if not, the steps of the children decide. A node met again has its result on record,
in a store that may have grown since. So what is said of a term and its result must go on to hold while the store
grows, and it holds of the whole step if it holds of the reducts at roots and is passed on from children to their
parent.

## Main statements

* `Outermost.Account` — what can be said of a parallel step level by level
* `Reduction.rewriteSubterms_yields` — **what is said of a single level holds of the whole step**
-/

namespace TermGraph

namespace Outermost

open Reduction

/-! ## A level -/

/-- The children, with the step of a child in its place if it has one. -/
def stepped {α : Type} (children : List α) (steps : List (Option α)) : List α :=
  List.zipWith (fun child step => step.getD child) children steps

theorem length_stepped {α : Type} {children : List α} {steps : List (Option α)}
    (h : steps.length = children.length) : (stepped children steps).length = children.length := by
  rw [stepped, List.length_zipWith, h, Nat.min_self]

theorem mem_stepped {α : Type} : ∀ {children : List α} {steps : List (Option α)} {c : α},
    c ∈ stepped children steps → c ∈ children ∨ some c ∈ steps
  | [], _, _, hc => by simp [stepped] at hc
  | _ :: _, [], _, hc => by simp [stepped] at hc
  | child :: children, step :: steps, c, hc => by
    rw [stepped, List.zipWith_cons_cons, List.mem_cons] at hc
    rcases hc with rfl | hc
    · cases step with
      | none => exact Or.inl List.mem_cons_self
      | some u => exact Or.inr List.mem_cons_self
    · exact (mem_stepped hc).imp (List.mem_cons_of_mem _) (List.mem_cons_of_mem _)

/-- What can be said of a parallel step level by level: `rests` of a term that is not rewritten at its root, and
`gives` of a term and its result in a store. -/
structure Account where
  rests : Term → Prop
  gives : Store → Term → Option Term → Prop
  mono : ∀ {store store' : Store} {t : Term} {r : Option Term}, gives store t r → store ≤ store' → gives store' t r
  owns : ∀ {store : Store} {t u : Term}, gives store t (some u) → store.Owns u
  kept : ∀ {store : Store} {t : Term} {steps : List (Option Term)}, rests t →
    List.Forall₂ (gives store) t.children steps → steps.any Option.isSome = false → gives store t none
  rebuilt : ∀ {store : Store} {t u : Term} {steps : List (Option Term)}, rests t →
    List.Forall₂ (gives store) t.children steps → steps.any Option.isSome = true → store.Owns u →
    u.shape = t.shape.withChildren (stepped t.children steps) → gives store t (some u)

variable {D : Discipline Session} {C : Custody} {A : Account} {F : Fault → Prop}
  {rewrite : Term → Reduction (Option Term)}

/-- Rewriting at the root agrees with the account: it gives reducts as they should be, leaves alone what rests, and
fails only as it may. -/
def Account.Bears (A : Account) (D : Discipline Session) (F : Fault → Prop)
    (rewrite : Term → Reduction (Option Term)) : Prop :=
  ∀ ⦃session : Session⦄ ⦃t : Term⦄, D.sound session → session.bench.store.Owns t →
    D.Yields (rewrite t) session (fun r session' => match r with
      | some u => A.gives session'.bench.store t (some u)
      | none => A.rests t) fun fault _ => F fault

/-- Every result on record is right for the node that it is kept for. -/
def Account.Records (A : Account) (store : Store) (memo : NodeMap (Option Term)) : Prop :=
  ∀ (id : NodeId) (r : Option Term), memo[id]? = some r → ∃ t, store.Owns t ∧ t.id = id ∧ A.gives store t r

namespace Account.Records

variable {store store' : Store} {memo : NodeMap (Option Term)} {t : Term} {r : Option Term}

theorem empty (store : Store) : A.Records store ∅ := fun id r hr => by simp at hr

theorem mono (h : A.Records store memo) (hle : store ≤ store') : A.Records store' memo := fun id r hr => by
  obtain ⟨t, ht, hid, hgives⟩ := h id r hr
  exact ⟨t, ht.mono hle, hid, A.mono hgives hle⟩

/-- What is on record for a node is right for it. -/
theorem gives (h : A.Records store memo) (ht : store.Owns t) (hr : memo[t.id]? = some r) : A.gives store t r := by
  obtain ⟨u, hu, hid, hgives⟩ := h t.id r hr
  exact hu.eq_of_id_eq ht hid ▸ hgives

theorem insert (h : A.Records store memo) (ht : store.Owns t) (hr : A.gives store t r) :
    A.Records store (memo.insert t.id r) := fun id r' hr' => by
  rw [NodeMap.getElem?_insert] at hr'
  split at hr'
  · next hid =>
    cases hr'
    exact ⟨t, ht, hid, hr⟩
  · exact h id r' hr'

end Account.Records

/-- The results are right for the children of a level, and so are those on record. -/
def Account.Level (A : Account) (children : List Term) (p : List (Option Term) × NodeMap (Option Term))
    (session : Session) : Prop :=
  List.Forall₂ (A.gives session.bench.store) children p.1 ∧ A.Records session.bench.store p.2

theorem Account.forall_mono {store store' : Store} {ts : List Term} {steps : List (Option Term)}
    (h : List.Forall₂ (A.gives store) ts steps) (hle : store ≤ store') : List.Forall₂ (A.gives store') ts steps :=
  h.imp fun _ _ hgives => A.mono hgives hle

/-- A step is a node of the store. -/
theorem Account.owns_of_mem {store : Store} : ∀ {ts : List Term} {steps : List (Option Term)},
    List.Forall₂ (A.gives store) ts steps → ∀ {u : Term}, some u ∈ steps → store.Owns u
  | _, _, .nil, _, hu => by cases hu
  | _, _, .cons hgives hrest, _, hu => by
    rcases List.mem_cons.mp hu with rfl | hu
    · exact A.owns hgives
    · exact owns_of_mem hrest hu

/-! ## The step at a node -/

theorem node_yields (hD : D.Hosts C) (hr : A.Bears D F rewrite) {t : Term}
    {steps : Outermost (List (Option Term))} {session : Session} {memo : NodeMap (Option Term)}
    (hs : D.sound session) (ht : session.bench.store.Owns t) (hm : A.Records session.bench.store memo)
    (hsteps : ∀ {session' : Session} {memo' : NodeMap (Option Term)}, D.sound session' →
      session'.bench.store.Owns t → A.Records session'.bench.store memo' →
      D.Yields (steps memo') session' (A.Level t.children) fun fault _ => F fault) :
    D.Yields (node rewrite t steps memo) session (fun p session' =>
      A.gives session'.bench.store t p.1 ∧ A.Records session'.bench.store p.2) fun fault _ => F fault := by
  have hrecord : ∀ {result : Option Term} {memo' : NodeMap (Option Term)} {session' : Session},
      D.sound session' → session'.bench.store.Owns t → A.gives session'.bench.store t result →
      A.Records session'.bench.store memo' →
      D.Yields ((do modify (·.insert t.id result); return result : Outermost (Option Term)) memo') session'
        (fun p session' => A.gives session'.bench.store t p.1 ∧ A.Records session'.bench.store p.2)
        fun fault _ => F fault := by
    intro result memo' session' hs' ht' hresult hm'
    exact .pure (a := (result, memo'.insert t.id result)) hs' ⟨hresult, hm'.insert ht' hresult⟩
  unfold node
  refine .readRecord ?_
  cases hmemo : memo[t.id]? with
  | some result => exact .pure (a := (result, memo)) hs ⟨hm.gives ht hmemo, hm⟩
  | none =>
    refine .bindState (Discipline.Yields.liftState (hr hs ht)) ?_
    rintro result memo₁ session₁ hs₁ hg₁ ⟨hresult, rfl⟩
    have ht₁ := ht.mono (hD.grows hg₁).1
    have hm₁ := hm.mono (hD.grows hg₁).1
    cases result with
    | some reduct => exact hrecord hs₁ ht₁ hresult hm₁
    | none =>
      refine .bindState (hsteps hs₁ ht₁ hm₁) ?_
      rintro results memo₂ session₂ hs₂ hg₂ ⟨hresults, hm₂⟩
      have hcanon₂ := hD.canonical hs₂
      have ht₂ := ht₁.mono (hD.grows hg₂).1
      cases hany : results.any Option.isSome with
      | true =>
        have hlength := length_stepped hresults.length_eq.symm
        have hrebuild := Work.build_yields (Build.rebuild_yields .own hcanon₂ (fun _ => ht₂)
          fun c (hc : c ∈ stepped t.children results) =>
            (mem_stepped hc).elim (hcanon₂.owns_child ht₂) (A.owns_of_mem hresults))
        refine .bindState (Discipline.Yields.liftState ((hosted_work hD hs₂ hrebuild).mono_fault
          fun _ _ _ _ hf => (hf.elim id fun hne => hne hlength).elim)) ?_
        rintro rebuilt memo₃ session₃ hs₃ hg₃ ⟨⟨⟨hu, hshape⟩, -⟩, rfl⟩
        have hle₃ := (hD.grows hg₃).1
        exact hrecord hs₃ (ht₂.mono hle₃)
          (A.rebuilt hresult (A.forall_mono hresults hle₃) hany hu (hshape hlength)) (hm₂.mono hle₃)
      | false => exact hrecord hs₂ ht₂ (A.kept hresult hresults hany) hm₂

mutual

/-- The result for a term is right for it, and so are those on record. -/
theorem term_yields (hD : D.Hosts C) (hr : A.Bears D F rewrite) : ∀ (t : Term) {session : Session}
    {memo : NodeMap (Option Term)}, D.sound session → session.bench.store.Owns t →
    A.Records session.bench.store memo →
    D.Yields (term rewrite t memo) session (fun p session' =>
      A.gives session'.bench.store t p.1 ∧ A.Records session'.bench.store p.2) fun fault _ => F fault
  | t@(.var _ _), session, memo, hs, ht, hm
  | t@(.const _ _), session, memo, hs, ht, hm
  | t@(.bound _ _ _), session, memo, hs, ht, hm => by
    rw [term]
    exact node_yields hD hr hs ht hm fun hs' _ hm' => .pure (a := ([], _)) hs' ⟨.nil, hm'⟩
  | t@(.fn _ _ args), session, memo, hs, ht, hm => by
    rw [term]
    exact node_yields hD hr hs ht hm fun hs' ht' hm' =>
      terms_yields hD hr args hs' (fun c hc => (hD.canonical hs').owns_child ht' hc) hm'
  | t@(.app _ function argument), session, memo, hs, ht, hm => by
    rw [term]
    refine node_yields hD hr hs ht hm fun {session₁ memo₁} hs₁ ht₁ hm₁ => ?_
    have hfun := (hD.canonical hs₁).owns_child ht₁ List.mem_cons_self
    have harg := (hD.canonical hs₁).owns_child ht₁ (List.mem_cons_of_mem _ List.mem_cons_self)
    refine .bindState (term_yields hD hr function hs₁ hfun hm₁) ?_
    rintro first memo₂ session₂ hs₂ hg₂ ⟨hfirst, hm₂⟩
    refine .bindState (term_yields hD hr argument hs₂ (harg.mono (hD.grows hg₂).1) hm₂) ?_
    rintro second memo₃ session₃ hs₃ hg₃ ⟨hsecond, hm₃⟩
    exact .pure (a := ([first, second], memo₃)) hs₃
      ⟨.cons (A.mono hfirst (hD.grows hg₃).1) (.cons hsecond .nil), hm₃⟩
  | t@(.lambda _ body), session, memo, hs, ht, hm => by
    rw [term]
    refine node_yields hD hr hs ht hm fun {session₁ memo₁} hs₁ ht₁ hm₁ => ?_
    refine .bindState (term_yields hD hr body hs₁ ((hD.canonical hs₁).owns_child ht₁ List.mem_cons_self) hm₁) ?_
    rintro first memo₂ session₂ hs₂ - ⟨hfirst, hm₂⟩
    exact .pure (a := ([first], memo₂)) hs₂ ⟨.cons hfirst .nil, hm₂⟩

theorem terms_yields (hD : D.Hosts C) (hr : A.Bears D F rewrite) : ∀ (ts : List Term) {session : Session}
    {memo : NodeMap (Option Term)}, D.sound session →
    (∀ t ∈ ts, session.bench.store.Owns t) → A.Records session.bench.store memo →
    D.Yields (terms rewrite ts memo) session (A.Level ts) fun fault _ => F fault
  | [], session, memo, hs, ht, hm => by
    rw [terms]
    exact .pure (a := ([], memo)) hs ⟨.nil, hm⟩
  | t :: ts, session, memo, hs, ht, hm => by
    rw [terms]
    refine .bindState (term_yields hD hr t hs (ht t List.mem_cons_self) hm) ?_
    rintro first memo₁ session₁ hs₁ hg₁ ⟨hfirst, hm₁⟩
    refine .bindState (terms_yields hD hr ts hs₁
      (fun u hu => (ht u (List.mem_cons_of_mem _ hu)).mono (hD.grows hg₁).1) hm₁) ?_
    rintro rest memo₂ session₂ hs₂ hg₂ ⟨hrest, hm₂⟩
    exact .pure (a := (first :: rest, memo₂)) hs₂ ⟨.cons (A.mono hfirst (hD.grows hg₂).1) hrest, hm₂⟩

end

end Outermost

/-! ## The whole step -/

/-- **The result of a parallel step is right for the node that the term is in the store.** -/
theorem Reduction.rewriteSubterms_yields {D : Discipline Session} {C : Custody} {A : Outermost.Account}
    {F : Fault → Prop} {rewrite : Term → Reduction (Option Term)} (hD : D.Hosts C) (hr : A.Bears D F rewrite)
    {t : Term} {session : Session} (hs : D.sound session) (ht : C.has session.bench.store t) :
    D.Yields (rewriteSubterms rewrite t) session (fun r session' => ∃ u : Term,
      (session.bench.store.contains t = true → u = t) ∧ A.gives session'.bench.store u r) fun fault _ => F fault := by
  unfold rewriteSubterms
  refine .bind (hosted_work hD hs (Work.adopt_yields (hD.canonical hs) ht)).no_fault ?_
  rintro u session₁ hs₁ - ⟨⟨hu, hsame, -⟩, -⟩
  refine .dropState ((Outermost.term_yields hD hr u hs₁ hu (.empty _)).mono ?_ fun _ _ _ _ hf => hf)
  rintro ⟨r, memo⟩ session₂ - - ⟨hgives, -⟩
  exact ⟨u, fun hown => (hsame hown).1, hgives⟩

end TermGraph
