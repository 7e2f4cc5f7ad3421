import TermGraph.Proofs.Furnished
import TermGraph.Proofs.Matching.Match
import TermGraph.Proofs.Tree.Variables

/-!
# Applying a rule on its own

Outside of a normalization nothing but the bindings of the match is followed when the template is inserted. The
nodes that are bound are those of the pattern, and what they are bound to is a part of the term, where nothing is
bound; so insertion never fails, and every node of the rule that is bound is copied as its own instance. That
nodes of the pattern other than variables are bound as well makes no difference.

## Main statements

* `PatternRule.apply_instantiates` — applying a rule gives its template instantiated by the match
* `PatternRule.apply_solves` — a rule is applied by the substitution that makes its pattern the term
* `World.applied_of_reachable` — **what applying a rule gives, and when it gives nothing**
-/

namespace TermGraph

variable {C : Custody} {store : Store} {b : Bindings} {σ : Assignment}

/-- A term of the rule's store is copied along the bindings as its instance. -/
theorem Bindings.Tracks.copied {scope : Nat} {q : Term} (h : b.Tracks C store scope σ) (hcanon : store.Canonical)
    (hne : scope ≠ store.scope) (hq : C.has store q) (hqs : q.scope = scope) :
    b.links.Copied store.scope q (q.tree.instantiate store.scope scope σ) := by
  have hpending : ∀ q, b.links.isPending q = false := fun q => by simp [Links.isPending, Bindings.links]
  refine .instantiate (P := fun q => C.has store q ∧ q.scope = scope) hne (fun q hq => hq.2) ?_
    (fun q _ => hpending q) ?_ ?_ q ⟨hq, hqs⟩
  · exact fun q hq c hc => ⟨C.child hcanon hq.1 hc, (C.scope_child hcanon hq.1 hc).trans hq.2⟩
  · intro q v hq hl
    obtain ⟨hv, hi⟩ := h.instance_eq hcanon hq.1 hl
    refine ⟨hi, Links.Copied.self_of (P := store.Owns) (fun v hv => hcanon.scope_eq hv)
      (fun v hv c hc => hcanon.owns_child hv hc)
      (fun v hv => ⟨hpending v, h.unbound_of_owns hcanon hne hv⟩) v hv⟩
  · exact fun q x hq hl hx => h.unassigned hcanon hq.1 hq.2 hx hl

namespace PatternRule

/-- The pattern of the rule becomes the term by the substitution, which puts nodes of the store in the place of the
pattern's variables and leaves all others alone. -/
structure Solves (rule : PatternRule) (store : Store) (t : Term) (θ : Substitution) : Prop where
  nodes : ∀ x ∈ rule.pattern.tree.vars, ∃ v, store.Owns v ∧ v.tree = θ x
  rest : ∀ x, x ∉ rule.pattern.tree.vars → θ x = .var x
  equal : rule.pattern.tree.fill store.scope rule.store.scope θ 0 = t.tree

variable {rule : PatternRule} {bench : Bench} {t : Term}

/-- A match is a solution. -/
theorem solves_of_tracks (h : b.Tracks C store rule.store.scope σ) (hcanon : store.Canonical)
    (hm : rule.pattern.tree.match? t.tree .empty = some σ) : rule.Solves store t σ.total where
  nodes x hx := by
    obtain ⟨u, hu, -⟩ := Tree.assigned_of_instance? (Tree.instance?_of_match? hm).2
      (Tree.every_true : t.tree.Every _ 0) x hx
    obtain ⟨p, v, hp, -, htree, hb⟩ := h.assigned x u hu
    obtain ⟨hv, hi⟩ := h.instance_eq hcanon hp hb
    rw [htree, Tree.instance?] at hi
    exact ⟨v, hv, by rw [Assignment.total, hi, Option.getD_some]⟩
  rest x hx := by
    rw [Assignment.total, Tree.eq_of_match? hm hx]
    rfl
  equal := Tree.fill_of_instance? (Tree.instance?_of_match? hm).2

/-- **A rule is applied by the match**, which its template is instantiated with, and never fails. -/
theorem apply_instantiates (h : bench.store.Canonical) (hrule : rule.Within C bench.store)
    (hne : rule.store.scope ≠ bench.store.scope) (ht : bench.store.Owns t) :
    working.Yields (rule.apply t) bench
      (fun r bench' => (rule.pattern.tree.match? t.tree .empty = none → r = none) ∧
        ∀ σ, rule.pattern.tree.match? t.tree .empty = some σ →
          (∃ b : Bindings, b.Tracks C bench.store rule.store.scope σ) ∧ ∃ u, r = some u ∧ bench'.store.Owns u ∧
            u.tree = rule.template.tree.instantiate bench.store.scope rule.store.scope σ)
      fun _ _ => False := by
  have hagrees := Bindings.tryMatch_agrees h hne hrule.1 rule.scope_pattern ht
    (Bindings.Tracks.empty C bench.store rule.store.scope)
  unfold apply
  refine .bind (Work.tryMatch_returns h _ _ _) ?_
  rintro r bench' h' - ⟨hr, hstore⟩
  obtain ⟨success, b⟩ := r
  have hsuccess : success = (rule.pattern.tree.match? t.tree .empty).isSome :=
    (congrArg Prod.fst hr).trans hagrees.success
  have hb : b = (Bindings.empty.tryMatch rule.pattern t).2 := congrArg Prod.snd hr
  cases hm : rule.pattern.tree.match? t.tree .empty with
  | none =>
    rw [hm, Option.isSome_none] at hsuccess
    subst hsuccess
    exact .pure h' ⟨fun _ => rfl, fun σ hσ => by cases hσ⟩
  | some σ =>
    rw [hm, Option.isSome_some] at hsuccess
    subst hsuccess
    have htracks : b.Tracks C bench.store rule.store.scope σ := hb ▸ hagrees.tracks σ hm
    rw [← hstore] at htracks hrule hne ⊢
    have hcopied := htracks.copied h' hne hrule.2 rule.scope_template
    have hwithin : b.links.Within C bench'.store := by
      intro u v hv
      obtain ⟨-, -, -, -, hown, -⟩ := htracks.bound u v hv
      exact C.of_owns hown
    refine .bind ((Work.insert_yields h' hwithin hrule.2).mono (fun _ _ _ _ hp => hp)
      fun _ _ _ _ hf => hf.2.2 ⟨_, hcopied⟩) ?_
    rintro u bench'' h'' - ⟨hu, hutree⟩
    refine .pure h'' ⟨fun hno => absurd hno (Option.some_ne_none σ), fun σ' hσ' => ?_⟩
    obtain rfl := Option.some.inj hσ'
    exact ⟨⟨b, htracks⟩, u, rfl, hu, hutree.unique hcopied⟩

/-- **A rule is applied by the substitution that makes its pattern the term.** -/
theorem apply_solves (h : bench.store.Canonical) (hrule : rule.Within C bench.store)
    (hne : rule.store.scope ≠ bench.store.scope) (ht : bench.store.Owns t)
    (hnative : t.tree.Every (fun _ slot => slot.Spared rule.store.scope) 0) :
    working.Yields (rule.apply t) bench
      (fun r bench' => match rule.pattern.tree.match? t.tree .empty with
        | none => r = none
        | some σ => rule.Solves bench.store t σ.total ∧ ∃ u, r = some u ∧ bench'.store.Owns u ∧
            u.tree = rule.template.tree.fill bench.store.scope rule.store.scope σ.total 0)
      fun _ _ => False := by
  refine (apply_instantiates h hrule hne ht).mono ?_ fun _ _ _ _ hF => hF
  rintro r bench' - - ⟨hnone, hsome⟩
  cases hm : rule.pattern.tree.match? t.tree .empty with
  | none => exact hnone hm
  | some σ =>
    obtain ⟨⟨b, htracks⟩, u, hu, hown, htree⟩ := hsome σ hm
    -- what the variables stand for are parts of the term
    have hσ : ∀ x u, σ x = some u → u.Every (fun _ slot => slot.Spared rule.store.scope) 0 := by
      intro x u hu
      by_cases hx : x ∈ rule.pattern.tree.vars
      · obtain ⟨u', hu', hevery⟩ := Tree.assigned_of_instance? (Tree.instance?_of_match? hm).2 hnative x hx
        exact Option.some.inj (hu.symm.trans hu') ▸ hevery
      · rw [Tree.eq_of_match? hm hx] at hu
        cases hu
    rw [Tree.instantiate_eq_fill hne hσ] at htree
    exact ⟨solves_of_tracks htracks h hm, u, hu, hown, htree⟩

end PatternRule

/-- What a symbol is applied to in the tree of a node are the trees of the node's children. -/
theorem Term.exists_child_of_tree {t : Term} {f : String} {args : List (Tree Slot)} (h : t.tree = .fn f args) :
    ∀ s ∈ args, ∃ c ∈ t.children, c.tree = s := by
  intro s hs
  cases t with
  | fn _ g ts =>
    rw [tree, Tree.fn.injEq] at h
    rw [← h.2, trees_eq_map, List.mem_map] at hs
    exact hs
  | _ => simp [tree] at h

namespace World

variable {world : World} {rule : PatternRule} {t : Term} {scope : Nat}

/-- **What applying a rule gives, and when it gives nothing.** In every reachable world, a rule of another store is
applied to a term whose bound variables count the binders of its own store, without fail. It gives nothing if the
pattern has binders or no substitution makes it the term; by the one that does, it gives the template filled in:
lambdas of the template are bound anew, what stands for a variable is raised by the number of lambdas above it, and
variables that the pattern does not have stay. -/
theorem applied_of_reachable (h : world.Reachable) (hrule : world.HasRule (.pattern rule))
    (hne : rule.store.scope ≠ scope) (journal : Journal) (ht : (world.stores scope).Owns t)
    (hnative : t.tree.Every (fun _ slot => slot.scope = scope) 0) :
    ∃ r bench, rule.apply t ⟨world.stores scope, journal⟩ = (.ok r, bench) ∧
      (r = none ↔ rule.pattern.tree.binderFree = false ∨ ¬ ∃ θ, rule.Solves (world.stores scope) t θ) ∧
      (rule.pattern.tree.binderFree = true → ∀ θ, rule.Solves (world.stores scope) t θ →
        ∃ u, r = some u ∧ bench.store.Owns u ∧
          u.tree = rule.template.tree.fill scope rule.store.scope θ 0) := by
  obtain ⟨hcanon, hscope⟩ : (⟨world.stores scope, journal⟩ : Bench).store.Canonical ∧ _ :=
    h.sound.stores scope
  have hspared : t.tree.Every (fun _ slot => slot.Spared rule.store.scope) 0 :=
    hnative.mono fun _ _ hs he => absurd ((Eq.symm he).trans hs) hne
  obtain ⟨r, bench, hrun, -, -, hr⟩ := (PatternRule.apply_solves hcanon (h.sound.rule_within scope hrule)
    (by rw [hscope]; exact hne) ht hspared).succeeds
  -- every solution is found by the match
  have hmatch : rule.pattern.tree.binderFree = true → ∀ θ, rule.Solves (world.stores scope) t θ →
      ∃ σ, rule.pattern.tree.match? t.tree .empty = some σ ∧ σ.total = θ :=
    fun hp θ hθ => Tree.match?_of_solution hp hθ.rest hθ.equal
  refine ⟨r, bench, hrun, ⟨?_, ?_⟩, ?_⟩
  · rintro rfl
    cases hm : rule.pattern.tree.match? t.tree .empty with
    | none =>
      cases hp : rule.pattern.tree.binderFree with
      | false => exact Or.inl rfl
      | true =>
        refine Or.inr fun ⟨θ, hθ⟩ => ?_
        obtain ⟨σ, hσ, -⟩ := hmatch hp θ hθ
        rw [hm] at hσ
        cases hσ
    | some σ =>
      rw [hm] at hr
      obtain ⟨-, u, hu, -⟩ := hr
      cases hu
  · intro hno
    cases hm : rule.pattern.tree.match? t.tree .empty with
    | none =>
      rw [hm] at hr
      exact hr
    | some σ =>
      rw [hm] at hr
      rcases hno with hbinders | hnone
      · rw [Tree.binderFree_of_instance? (Tree.instance?_of_match? hm).2] at hbinders
        cases hbinders
      · exact absurd ⟨_, hr.1⟩ hnone
  · intro hp θ hθ
    obtain ⟨σ, hm, rfl⟩ := hmatch hp θ hθ
    rw [hm, hscope] at hr
    exact hr.2

/-- `f(x, x, g(y)) -> λ.h(x, %0, λ.k(y, %1, w))` turns `f(%1, %1, g(λ.(%0 %2)))` into
`λ.h(%2, %0, λ.k(λ.(%0 %4), %1, w))`. -/
theorem applied_below_binders :
    let script : Rule.Script := ⟨.fn "f" [.var "x", .var "x", .fn "g" [.var "y"]],
      .lambda (.fn "h" [.var "x", .bound (.clamp 0), .lambda (.fn "k" [.var "y", .bound (.clamp 1), .var "w"])]),
      none⟩
    let tree : Tree Index := .fn "f" [.bound (.clamp 1), .bound (.clamp 1),
      .fn "g" [.lambda (.app (.bound (.clamp 0)) (.bound (.clamp 2)))]]
    let world := (furnished [script]).step 0 0 (.plant tree)
    ∃ rule t u bench, Rule.ofScript 1 script = .pattern rule ∧ (world.stores 0).Owns t ∧
      t.tree = tree.planted 0 ∧ rule.apply t ⟨world.stores 0, #[]⟩ = (.ok (some u), bench) ∧
      u.tree = .lambda (.fn "h" [.bound ⟨.clamp 2, 0⟩, .bound ⟨.clamp 0, 0⟩,
        .lambda (.fn "k" [.lambda (.app (.bound ⟨.clamp 0, 0⟩) (.bound ⟨.clamp 4, 0⟩)), .bound ⟨.clamp 1, 0⟩,
          .var "w"])]) := by
  intro script tree world
  have hsides : (match Rule.ofScript 1 script with
      | .pattern rule => decide (rule.store.scope = 1 ∧ rule.pattern.tree = script.pattern.planted 1 ∧
          rule.template.tree = script.template.planted 1)
      | _ => false) = true := by decide +kernel
  split at hsides
  · next rule hrule =>
    obtain ⟨hscope, hpattern, htemplate⟩ := of_decide_eq_true hsides
    have hreach : world.Reachable := furnished_plant_reachable [script] tree
    have hhas : world.HasRule (.pattern rule) := furnished_plant_hasRule_of_eq hrule tree
    obtain ⟨t, ht, hts, htree⟩ := (furnished_reachable [script]).planted 0 0 tree
    rw [Has, hts] at ht
    let θ : Substitution := fun x => if x = "x" then .bound ⟨.clamp 1, 0⟩ else
      if x = "y" then .lambda (.app (.bound ⟨.clamp 0, 0⟩) (.bound ⟨.clamp 2, 0⟩)) else .var x
    have hsolves : ∀ store : Store, store.Canonical → store.scope = 0 → store.Owns t → rule.Solves store t θ := by
      intro store hcanon hzero ht
      have hchild := Term.exists_child_of_tree htree
      have hvars : rule.pattern.tree.vars = ["x", "x", "y"] := by rw [hpattern]; rfl
      refine ⟨fun x hx => ?_, fun x hx => ?_, ?_⟩
      · obtain ⟨c, hc, hctree⟩ := hchild (.bound ⟨.clamp 1, 0⟩) (by decide)
        obtain ⟨g, hg, hgtree⟩ := hchild
          (.fn "g" [.lambda (.app (.bound ⟨.clamp 0, 0⟩) (.bound ⟨.clamp 2, 0⟩))]) (by decide)
        obtain ⟨d, hd, hdtree⟩ := Term.exists_child_of_tree hgtree _ List.mem_cons_self
        simp only [hvars, List.mem_cons, List.not_mem_nil, or_false] at hx
        rcases hx with rfl | rfl | rfl
        · exact ⟨c, hcanon.owns_child ht hc, hctree⟩
        · exact ⟨c, hcanon.owns_child ht hc, hctree⟩
        · exact ⟨d, hcanon.owns_child (hcanon.owns_child ht hg) hd, hdtree⟩
      · simp only [hvars, List.mem_cons, List.not_mem_nil, or_false, not_or] at hx
        simp only [θ, if_neg hx.1, if_neg hx.2.2]
      · rw [hpattern, htree, hscope, hzero]
        rfl
    have hnative : t.tree.Every (fun _ slot => slot.scope = 0) 0 := by rw [htree]; decide
    obtain ⟨r, bench, hrun, -, happlied⟩ :=
      applied_of_reachable hreach hhas (by rw [hscope]; exact one_ne_zero) #[] ht hnative
    obtain ⟨u, rfl, -, hu⟩ := happlied (by rw [hpattern]; rfl) θ
      (hsolves _ (hreach.sound.stores 0).1 (hreach.sound.stores 0).2 ht)
    refine ⟨rule, t, u, bench, hrule, ht, htree, hrun, ?_⟩
    rw [hu, htemplate, hscope]
    rfl
  · cases hsides

end World

end TermGraph
