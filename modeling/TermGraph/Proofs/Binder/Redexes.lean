import TermGraph.Proofs.Furnished
import TermGraph.Proofs.Tree.Beta

/-!
# Contraction in a store

A store contracts in three walks, each of which leaves alone what no free index reaches and remembers what it has
been through. What comes out is the node of the contraction in one descent, so the laws of that descent are laws of
nodes: nodes with equal trees are the same.

## Main statements

* `World.contracts_in_one_descent` — **the tree of a contraction**
* `World.nested_redexes_commute` — **nested redexes end in the same node, whichever is contracted first**
-/

namespace TermGraph

/-- As long as no index leaves the range, raising adds to the free indices of the scope and does nothing else. -/
theorem Tree.raise_eq_mapBound {own n : Nat} {t : Tree Slot} (h : t.Liftable own n) :
    t.raise own n = t.mapBound (fun depth slot =>
      .bound (if slot.scope = own ∧ depth ≤ slot.index.val then ⟨slot.index.move n, own⟩ else slot)) 0 := by
  refine mapBound_congr (fun depth slot hslot => ?_) h
  by_cases hfree : slot.scope = own ∧ depth ≤ slot.index.val
  · rw [if_pos hfree, shiftSlot_raises hfree.1 hfree.2 (hslot hfree.1 hfree.2)]
  · rw [if_neg hfree, shiftSlot_stays fun hs => Nat.not_le.mp fun hd => hfree ⟨hs, hd⟩]

/-- A node that unfolds to an application of a lambda is one. -/
theorem Term.eq_redex {t : Term} {body argument : Tree Slot} (h : t.tree = .app (.lambda body) argument) :
    ∃ stamp stamp' b a, t = .app stamp (.lambda stamp' b) a ∧ b.tree = body ∧ a.tree = argument := by
  cases t with
  | app stamp f a =>
    rw [tree, Tree.app.injEq] at h
    cases f with
    | lambda stamp' b =>
      rw [tree, Tree.lambda.injEq] at h
      exact ⟨stamp, stamp', b, a, rfl, h.1, h.2⟩
    | _ => simp [tree] at h
  | _ => simp [tree] at h

namespace Build

variable {store : Store} {body argument : Term}

/-- As long as no index leaves the range, contraction of nodes is one descent on their trees. -/
theorem contract_descends (h : store.Canonical) (hb : store.Owns body) (ha : store.Owns argument)
    (hfits : Tree.Fits store.scope argument.tree 0 body.tree) :
    building.Yields (contract body argument) store
      (fun u store' => store'.Owns u ∧ u.tree = Tree.beta store.scope argument.tree 0 body.tree) fun _ _ => False := by
  rw [← Tree.contract_eq_beta hfits]
  exact contract_yields (C := .own) h hb ha

/-- A lambda next to an argument may be made of nodes of the store. -/
theorem redex_yields (h : store.Canonical) (hb : store.Owns body) (ha : store.Owns argument) :
    building.Yields (do app (← lambda body) argument) store
      (fun u store' => store'.Owns u ∧ u.tree = .app (.lambda body.tree) argument.tree) fun _ _ => False := by
  refine .bind (intern_yields .own h (.lambda body) fun c hc => ?_) ?_
  · rw [List.mem_singleton.mp hc]
    exact hb
  · rintro f store₁ h₁ hle₁ ⟨hf, hfshape⟩
    refine (intern_yields .own h₁ (.app f argument) fun c hc => ?_).mono ?_ fun _ _ _ _ hF => hF
    · simp only [Shape.children, List.mem_cons, List.not_mem_nil, or_false] at hc
      rcases hc with rfl | rfl
      · exact hf
      · exact ha.mono hle₁
    · rintro u store₂ - - ⟨hu, hushape⟩
      refine ⟨hu, ?_⟩
      rw [Term.tree_eq_ofShape, hushape, Shape.map, Tree.ofShape, Term.tree_eq_ofShape f, hfshape]
      rfl

end Build

namespace World

variable {world : World} {k : Nat} {body argument b a₁ a₂ : Term}

/-- **The tree of a contraction.** In every reachable world, the contraction of two nodes of a store does not fail. As
long as no index leaves the range, it gives the node whose tree is that of the body in which, below `depth` of its
lambdas, an index of the store that one of them binds stays, the index `depth` has become the argument with its free
indices of the store raised by `depth`, an index of the store beyond it is one less, and indices of other scopes
stay. -/
theorem contracts_in_one_descent (h : world.Reachable) (hb : (world.stores k).Owns body)
    (ha : (world.stores k).Owns argument) (hfits : Tree.Fits k argument.tree 0 body.tree) :
    ∃ u store, Build.contract body argument (world.stores k) = (.ok u, store) ∧ store.Owns u ∧
      u.tree = body.tree.mapBound (fun depth slot =>
        if slot.scope ≠ k ∨ slot.index.val < depth then .bound slot
        else if slot.index.val = depth then argument.tree.mapBound (fun d s =>
          .bound (if s.scope = k ∧ d ≤ s.index.val then ⟨s.index.move depth, k⟩ else s)) 0
        else .bound ⟨slot.index.below, k⟩) 0 := by
  obtain ⟨hcanon, hscope⟩ := h.sound.stores k
  obtain ⟨u, store, hrun, -, -, hu, htree⟩ :=
    (Build.contract_descends hcanon hb ha (by rw [hscope]; exact hfits)).succeeds
  refine ⟨u, store, hrun, hu, ?_⟩
  rw [htree, hscope]
  refine Tree.mapBound_congr (fun depth slot hslot => ?_) hfits
  by_cases hs : slot.scope = k
  · rcases Nat.lt_trichotomy slot.index.val depth with hlt | heq | hgt
    · rw [Tree.betaSlot_stays fun _ => hlt, if_pos (Or.inr hlt)]
    · rw [Tree.betaSlot_takes hs heq, if_neg (by simp [hs, heq]), if_pos heq, Tree.raise_eq_mapBound (hslot hs heq).2]
    · rw [Tree.betaSlot_lowers hs hgt, if_neg (by simp [hs, hgt.le]), if_neg hgt.ne']
  · rw [Tree.betaSlot_stays fun hc => absurd hc hs, if_pos (Or.inl hs)]

/-- In `f(%0, λ.p(%0, %1, %3))`, `%1` below the lambda is the variable of the binder, and what takes its place is raised. -/
theorem contracts_below_lambda :
    let trees : List (Nat × Tree Index) := [
      (0, .fn "f" [.bound (.clamp 0), .lambda (.fn "p" [.bound (.clamp 0), .bound (.clamp 1), .bound (.clamp 3)])]),
      (0, .fn "g" [.bound (.clamp 2), .lambda (.bound (.clamp 0))])]
    ∃ body argument u store, ((stocked trees).stores 0).Owns body ∧ ((stocked trees).stores 0).Owns argument ∧
      Tree.Fits 0 argument.tree 0 body.tree ∧
      Build.contract body argument ((stocked trees).stores 0) = (.ok u, store) ∧ store.Owns u ∧
      u.tree = .fn "f" [.fn "g" [.bound ⟨.clamp 2, 0⟩, .lambda (.bound ⟨.clamp 0, 0⟩)],
        .lambda (.fn "p" [.bound ⟨.clamp 0, 0⟩, .fn "g" [.bound ⟨.clamp 3, 0⟩, .lambda (.bound ⟨.clamp 0, 0⟩)],
          .bound ⟨.clamp 2, 0⟩])] := by
  intro trees
  have hreach := stocked_reachable trees
  obtain ⟨body, hbody, hbscope, hbtree⟩ := stocked_has (show (0, _) ∈ trees from List.mem_cons_self)
  obtain ⟨argument, hargument, hascope, hatree⟩ :=
    stocked_has (show (0, _) ∈ trees from List.mem_cons_of_mem _ List.mem_cons_self)
  have hfits : Tree.Fits 0 argument.tree 0 body.tree := by
    rw [hbtree, hatree]
    decide
  obtain ⟨u, store, hrun, hu, htree⟩ :=
    contracts_in_one_descent hreach (hbody.owns hbscope) (hargument.owns hascope) hfits
  refine ⟨body, argument, u, store, hbody.owns hbscope, hargument.owns hascope, hfits, hrun, hu, ?_⟩
  rw [htree, hbtree, hatree]
  rfl

/-- **Nested redexes end in the same node, whichever is contracted first.** In every reachable world, let `b`, `a₁` and
`a₂` be nodes of a store, with room for every index that moves. The node for `(λ.b) a₁`, taken as a body and
contracted with `a₂`, becomes a redex again; its contraction is the node that `b` becomes when it is contracted with
`a₁` first and with `a₂` then. -/
theorem nested_redexes_commute (h : world.Reachable) (hb : (world.stores k).Owns b) (h₁ : (world.stores k).Owns a₁)
    (h₂ : (world.stores k).Owns a₂) (hredex : Tree.Fits k a₂.tree 0 (.app (.lambda b.tree) a₁.tree))
    (hinner : Tree.Fits k a₁.tree 0 b.tree)
    (houter : Tree.Fits k a₂.tree 0 (Tree.beta k a₁.tree 0 b.tree)) :
    ∃ redex r w v stamp stamp' b' a' store₁ store₂ store₃ store₄ store₅,
      (do Build.app (← Build.lambda b) a₁ : Build Term) (world.stores k) = (.ok redex, store₁) ∧
      Build.contract redex a₂ store₁ = (.ok r, store₂) ∧ r = .app stamp (.lambda stamp' b') a' ∧
      Build.contract b' a' store₂ = (.ok w, store₃) ∧
      Build.contract b a₁ store₃ = (.ok v, store₄) ∧ Build.contract v a₂ store₄ = (.ok w, store₅) := by
  obtain ⟨hcanon, hscope⟩ := h.sound.stores k
  obtain ⟨redex, store₁, hrun₁, hcanon₁, hle₁, hown₁, htree₁⟩ := (Build.redex_yields hcanon hb h₁).succeeds
  have hscope₁ : store₁.scope = k := (Store.scope_eq_of_le hle₁).trans hscope
  obtain ⟨r, store₂, hrun₂, hcanon₂, hle₂, hown₂, htree₂⟩ :=
    (Build.contract_descends hcanon₁ hown₁ (h₂.mono hle₁) (by rw [hscope₁, htree₁]; exact hredex)).succeeds
  have hscope₂ : store₂.scope = k := (Store.scope_eq_of_le hle₂).trans hscope₁
  rw [hscope₁, htree₁] at htree₂
  obtain ⟨stamp, stamp', b', a', rfl, hb', ha'⟩ := Term.eq_redex htree₂
  have hlambda : store₂.Owns (.lambda stamp' b') := hcanon₂.owns_child hown₂ List.mem_cons_self
  have hargument : store₂.Owns a' := hcanon₂.owns_child hown₂ (List.mem_cons_of_mem _ List.mem_cons_self)
  -- there is room for the second contraction because there is for the other two
  have hroom : Tree.Fits store₂.scope a'.tree 0 b'.tree := by
    rw [hscope₂, ha', hb']
    exact hinner.beta hredex.1 houter
  obtain ⟨w, store₃, hrun₃, hcanon₃, hle₃, hown₃, htree₃⟩ :=
    (Build.contract_descends hcanon₂ (hcanon₂.owns_child hlambda List.mem_cons_self) hargument hroom).succeeds
  have hscope₃ : store₃.scope = k := (Store.scope_eq_of_le hle₃).trans hscope₂
  have hle : world.stores k ≤ store₃ := le_trans hle₁ (le_trans hle₂ hle₃)
  obtain ⟨v, store₄, hrun₄, hcanon₄, hle₄, hown₄, htree₄⟩ :=
    (Build.contract_descends hcanon₃ (hb.mono hle) (h₁.mono hle) (by rw [hscope₃]; exact hinner)).succeeds
  have hscope₄ : store₄.scope = k := (Store.scope_eq_of_le hle₄).trans hscope₃
  obtain ⟨w', store₅, hrun₅, hcanon₅, hle₅, hown₅, htree₅⟩ :=
    (Build.contract_descends hcanon₄ hown₄ (h₂.mono (le_trans hle hle₄))
      (by rw [hscope₄, htree₄, hscope₃]; exact houter)).succeeds
  obtain rfl : w' = w := by
    refine hcanon₅.eq_of_tree_eq hown₅ (hown₃.mono (le_trans hle₄ hle₅)) ?_
    rw [htree₅, htree₄, htree₃, hscope₂, hscope₃, hscope₄, ha', hb']
    exact (Tree.beta_beta hinner hredex.1).symm
  exact ⟨redex, _, w', v, stamp, stamp', b', a', store₁, store₂, store₃, store₄, store₅, hrun₁, hrun₂, rfl, hrun₃,
    hrun₄, hrun₅⟩

/-- In `(λ.f(%0, %1, λ.h(%1, %2, %4))) g(%0, λ.%1)`, contracted with `k(%5)`, every way of moving occurs. -/
theorem nested_redexes_of_abstracting :
    let trees : List (Nat × Tree Index) := [
      (0, .fn "f" [.bound (.clamp 0), .bound (.clamp 1),
        .lambda (.fn "h" [.bound (.clamp 1), .bound (.clamp 2), .bound (.clamp 4)])]),
      (0, .fn "g" [.bound (.clamp 0), .lambda (.bound (.clamp 1))]), (0, .fn "k" [.bound (.clamp 5)])]
    ∃ b a₁ a₂, Tree.Fits 0 a₂.tree 0 (.app (.lambda b.tree) a₁.tree) ∧ Tree.Fits 0 a₁.tree 0 b.tree ∧
      Tree.Fits 0 a₂.tree 0 (Tree.beta 0 a₁.tree 0 b.tree) ∧
      ∃ redex r w v stamp stamp' b' a' store₁ store₂ store₃ store₄ store₅,
      (do Build.app (← Build.lambda b) a₁ : Build Term) ((stocked trees).stores 0) = (.ok redex, store₁) ∧
      Build.contract redex a₂ store₁ = (.ok r, store₂) ∧ r = .app stamp (.lambda stamp' b') a' ∧
      Build.contract b' a' store₂ = (.ok w, store₃) ∧
      Build.contract b a₁ store₃ = (.ok v, store₄) ∧ Build.contract v a₂ store₄ = (.ok w, store₅) := by
  intro trees
  have hreach := stocked_reachable trees
  obtain ⟨b, hb, hbscope, hbtree⟩ := stocked_has (show (0, _) ∈ trees from List.mem_cons_self)
  obtain ⟨a₁, h₁, hscope₁, htree₁⟩ :=
    stocked_has (show (0, _) ∈ trees from List.mem_cons_of_mem _ List.mem_cons_self)
  obtain ⟨a₂, h₂, hscope₂, htree₂⟩ :=
    stocked_has (show (0, _) ∈ trees from List.mem_cons_of_mem _ (List.mem_cons_of_mem _ List.mem_cons_self))
  have hredex : Tree.Fits 0 a₂.tree 0 (.app (.lambda b.tree) a₁.tree) := by
    rw [hbtree, htree₁, htree₂]
    decide
  have hinner : Tree.Fits 0 a₁.tree 0 b.tree := by
    rw [hbtree, htree₁]
    decide
  have houter : Tree.Fits 0 a₂.tree 0 (Tree.beta 0 a₁.tree 0 b.tree) := by
    rw [hbtree, htree₁, htree₂]
    decide
  exact ⟨b, a₁, a₂, hredex, hinner, houter,
    nested_redexes_commute hreach (hb.owns hbscope) (h₁.owns hscope₁) (h₂.owns hscope₂) hredex hinner houter⟩

end World

end TermGraph
