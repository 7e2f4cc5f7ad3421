import TermGraph.Proofs.Normalizer.Orderly
import TermGraph.Proofs.Normalizer.Quiet
import TermGraph.Proofs.Rewriting.Applying
import TermGraph.Proofs.Rewriting.Reading

/-!
# The reduct of a tree by a rule

Rules without conditions need nothing but the tree: what they make of it does not depend on what a normalizer knows.
A tree that is a value is one that no such rule rewrites, unless a rule has its own pattern in its template, and
where no rule rewrites the tree of a node, applying rules to the node finds nothing and leaves nothing but notes.

## Main statements

* `Rule.reduct?` — the reduct at the root of a tree
* `Rule.apply_reads` — **applying a rule to a node gives the reduct of its tree**
* `Evaluates.irreducible` — **a value is rewritten by no rule**
* `Rewriter.apply_of_irreducible` — **where no rule rewrites the tree, applying the rules to the node finds nothing**
-/

namespace TermGraph

/-- The reduct of a tree by the sides of the rule. -/
def PatternRule.reduct? (own : Nat) (rule : PatternRule) (t : Tree Slot) : Option (Tree Slot) :=
  (rule.pattern.tree.match? t .empty).map (rule.template.tree.instantiate own rule.template.scope)

/-- The reduct of a tree by the rule, whatever the rule's conditions. -/
def Rule.reduct? (own : Nat) : Rule → Tree Slot → Option (Tree Slot)
  | .pattern rule, t => rule.reduct? own t
  | .conditional rule _ _, t => rule.reduct? own t
  | .contraction, t => t.contraction? own

/-- The rule has no conditions. -/
def Rule.Plain : Rule → Prop
  | .conditional _ _ _ => False
  | _ => True

instance (rule : Rule) : Decidable rule.Plain :=
  match rule with
  | .pattern _ => inferInstanceAs (Decidable True)
  | .conditional _ _ _ => inferInstanceAs (Decidable False)
  | .contraction => inferInstanceAs (Decidable True)

theorem Rule.Calm.plain : ∀ {rule : Rule}, rule.Calm → rule.Plain
  | .pattern _, _ => trivial
  | .contraction, _ => trivial

variable {rules : List Rule} {own : Nat} {t u v : Tree Slot}

/-! ## Values -/

/-- A rule that is calm has the same reduct whatever else has a value. -/
theorem Rule.Calm.step?_eq {e : Evaluator} : ∀ {rule : Rule}, rule.Calm →
    rule.step? e own t = some (rule.reduct? own t)
  | .pattern rule, h => by
    have hocc : rule.pattern.tree.occurs rule.template.tree = false := h
    cases hm : rule.pattern.tree.match? t .empty <;>
      simp [step?, PatternRule.step?, reduct?, PatternRule.reduct?, Condition.checkAll?, hm, hocc]
  | .contraction, _ => rfl

/-- If calm rules come to nothing, each of them does. -/
theorem Rule.reduct?_of_firstStep? {e : Evaluator} : ∀ {rules : List Rule}, (∀ rule ∈ rules, rule.Calm) →
    firstStep? e own rules t = some none → ∀ rule ∈ rules, rule.reduct? own t = none
  | [], _, _ => by simp
  | rule :: rules, hcalm, h => by
    obtain ⟨hfirst, hrest⟩ := List.forall_mem_cons.mp hcalm
    rw [firstStep?, hfirst.step?_eq] at h
    cases hr : rule.reduct? own t with
    | none =>
      rw [hr] at h
      exact List.forall_mem_cons.mpr ⟨hr, reduct?_of_firstStep? hrest h⟩
    | some u => simp [hr] at h

/-- What evaluates to itself is not rewritten at the root. -/
theorem Evaluates.firstStep? (h : Evaluates rules own t t) :
    ∃ n, Rule.firstStep? (evaluate rules own n) own rules t = some none := by
  obtain ⟨n, hn⟩ := h
  obtain ⟨k, -, hk, hno⟩ := evaluate_least hn
  obtain ⟨g, -, r, hstep, hv⟩ := evaluate_succ_iff.mp hk
  cases r with
  | none => exact ⟨k, hv ▸ hstep⟩
  | some u =>
    -- the reduct would give the tree as its value in fewer steps than there have to be
    rw [evaluate_value hv] at hno
    cases hno

/-- **A value is rewritten by no rule**, if all rules are calm. -/
theorem Evaluates.irreducible (h : Evaluates rules own t t) (hcalm : ∀ rule ∈ rules, rule.Calm) :
    ∀ rule ∈ rules, rule.reduct? own t = none := by
  obtain ⟨n, hn⟩ := h.firstStep?
  exact Rule.reduct?_of_firstStep? hcalm hn

/-! ## Rules that are applied -/

/-- **Applying a rule to a node gives a node of the store for the reduct of its tree**, nothing if there is none, and
never fails. -/
theorem Rule.apply_reads {C : Custody} {bench : Bench} {t : Term} (h : bench.store.Canonical)
    (ht : bench.store.Owns t) : ∀ {rule : Rule}, rule.Within C bench.store →
      rule.scope? ≠ some bench.store.scope →
      working.Yields (rule.apply t) bench (fun r bench' => (∀ u ∈ r, bench'.store.Owns u) ∧
        r.map Term.tree = rule.reduct? bench.store.scope t.tree) fun _ _ => False := by
  have hsides : ∀ {sides : PatternRule}, sides.Within C bench.store → sides.store.scope ≠ bench.store.scope →
      working.Yields (sides.apply t) bench (fun r bench' => (∀ u ∈ r, bench'.store.Owns u) ∧
        r.map Term.tree = sides.reduct? bench.store.scope t.tree) fun _ _ => False := by
    intro sides hwithin hne
    refine (sides.apply_instantiates h hwithin hne ht).mono ?_ fun _ _ _ _ hF => hF
    rintro r bench' - - ⟨hnone, hsome⟩
    rw [PatternRule.reduct?, sides.scope_template]
    cases hm : sides.pattern.tree.match? t.tree .empty with
    | none => simp [hnone hm]
    | some σ =>
      obtain ⟨-, u, rfl, hown, htree⟩ := hsome σ hm
      simp [hown, htree]
  intro rule hwithin hapart
  cases rule with
  | pattern sides => exact hsides hwithin fun he => hapart (congrArg some he)
  | conditional sides _ _ => exact hsides hwithin.1 fun he => hapart (congrArg some he)
  | contraction => exact Work.contract_reads h ht

/-! ## Rules that find nothing -/

/-- The discipline of looking on: neither the store nor what the normalizer knows changes. -/
def watching (store : Store) (cache : Cache) : Discipline Session where
  sound session := session.bench.store = store ∧ session.cache = cache
  grows _ _ := True
  refl _ := trivial
  trans _ _ := trivial

section

variable {C : Custody} {store : Store} {cache : Cache} {bench : Bench} {session : Session} {t : Term}
  {rule : Rule} {reduce : Term → Reduction Term}

namespace Work

/-- A node of the store need not be inserted. -/
theorem adopt_owned (ht : bench.store.contains t = true) : adopt t bench = (.ok t, bench) := by
  unfold adopt
  change (if bench.store.contains t = true then (return t : Work Term) else insert .none t) bench = _
  rw [if_pos ht]
  rfl

/-- A term of another store is inserted. -/
theorem adopt_foreign (ht : ¬ bench.store.contains t = true) : adopt t bench = insert .none t bench := by
  unfold adopt
  change (if bench.store.contains t = true then (return t : Work Term) else insert .none t) bench = _
  rw [if_neg ht]

/-- A node of the store that is no lambda next to its argument is left alone. -/
theorem contract_rests (ht : bench.store.contains t = true)
    (hno : t.tree.contraction? bench.store.scope = none) : contract t bench = (.ok none, bench) := by
  unfold contract
  simp only [Bind.bind, ExceptT.bind, ExceptT.mk, StateT.bind, adopt_owned ht, ExceptT.bindCont]
  split
  · next body argument => simp [Term.tree, Tree.contraction?] at hno
  · rfl

end Work

namespace Reduction

/-- A rule without conditions that does not rewrite the tree of a node does not rewrite the node. -/
theorem rewriteRule_rests (hplain : rule.Plain) (hcanon : store.Canonical) (hwithin : rule.Within C store)
    (hapart : rule.scope? ≠ some store.scope) (ht : store.Owns t)
    (hno : rule.reduct? store.scope t.tree = none) (hs : (watching store cache).sound session) :
    (watching store cache).Yields (rule.rewrite reduce t) session (fun r _ => r = none) fun _ _ => False := by
  obtain ⟨rfl, rfl⟩ := hs
  cases rule with
  | conditional _ _ _ => exact hplain.elim
  | pattern rule =>
    have hfails : (Bindings.empty.tryMatch rule.pattern t).1 = false := by
      have hagrees := Bindings.tryMatch_agrees hcanon (fun h => hapart (congrArg some h)) hwithin.1
        rule.scope_pattern ht (.empty C session.bench.store _)
      rw [hagrees.success, Option.map_eq_none_iff.mp hno, Option.isSome_none]
    unfold Rule.rewrite rewriteIf
    refine .bind ((work_yields (D := watching _ _) (Work.tryMatch_returns hcanon .empty rule.pattern t)
      fun bench he _ _ => ⟨⟨he ▸ rfl, rfl⟩, trivial⟩).mono_fault fun _ _ _ _ hF => hF.1) ?_
    rintro ⟨success, b⟩ session' hs' - ⟨⟨hresult, -⟩, -⟩
    rw [show success = false from (congrArg Prod.fst hresult).trans hfails]
    exact .pure hs' rfl
  | contraction =>
    have hrun := Work.contract_rests (hcanon.contains ht) hno
    have he : Rule.rewrite reduce .contraction t session = (.ok none, session) := by
      simp only [Rule.rewrite, work, hrun]
    exact .of_eq_ok he ⟨rfl, rfl⟩ trivial rfl

/-- Rules without conditions that do not rewrite the tree of a node do not rewrite the node. -/
theorem rewriteFirst_rests (hcanon : store.Canonical) (ht : store.Owns t) : ∀ {rules : List Rule}
    {onlyCycles : Bool} {session : Session}, (∀ rule ∈ rules, rule.Plain) →
    (∀ rule ∈ rules, rule.Within C store) → (∀ rule ∈ rules, rule.scope? ≠ some store.scope) →
    (∀ rule ∈ rules, rule.reduct? store.scope t.tree = none) → (watching store cache).sound session →
    (watching store cache).Yields (rewriteFirst reduce t rules none onlyCycles) session (fun r _ => r = none)
      fun _ _ => False
  | [], onlyCycles, session, _, _, _, _, hs => by
    unfold rewriteFirst
    exact .pure hs rfl
  | rule :: rules, onlyCycles, session, hplain, hwithin, hapart, hno, hs => by
    simp only [List.forall_mem_cons] at hplain hwithin hapart hno
    unfold rewriteFirst
    refine .bind ((orCycle_yields (rewriteRule_rests hplain.1 hcanon hwithin.1 hapart.1 ht hno.1 hs)).mono_fault
      fun _ _ _ _ hF => hF.1) ?_
    rintro result session' hs' - hresult
    cases result with
    | error cycle => exact hresult.elim
    | ok r =>
      subst hresult
      exact rewriteFirst_rests hcanon ht hplain.2 hwithin.2 hapart.2 hno.2 hs'

end Reduction

/-- **Where no rule rewrites the tree of a node, applying the rules to the node finds nothing** and leaves nothing
but notes, if the rules have no conditions. -/
theorem Rewriter.apply_of_irreducible {rewriter : Rewriter} (steps : Nat) (hcanon : bench.store.Canonical)
    (hplain : ∀ rule ∈ rewriter.rules, rule.Plain) (hwithin : ∀ rule ∈ rewriter.rules, rule.Within C bench.store)
    (hapart : ∀ rule ∈ rewriter.rules, rule.scope? ≠ some bench.store.scope) (ht : bench.store.Owns t)
    (hno : ∀ rule ∈ rewriter.rules, rule.reduct? bench.store.scope t.tree = none) :
    ∃ journal, rewriter.apply steps t bench = (.ok none, { bench with journal }) := by
  have hyields : (watching bench.store .empty).Yields (rewriter.rewrite (Reduction.reduce rewriter steps) t)
      { bench } (fun r _ => r = none) fun _ _ => False := by
    cases rewriter with
    | rule rule =>
      have hmem : rule ∈ (Rewriter.rule rule).rules := List.mem_singleton_self rule
      exact Reduction.rewriteRule_rests (hplain _ hmem) hcanon (hwithin _ hmem) (hapart _ hmem) ht (hno _ hmem)
        ⟨rfl, rfl⟩
    | system rules => exact Reduction.rewriteFirst_rests hcanon ht hplain hwithin hapart hno ⟨rfl, rfl⟩
  obtain ⟨r, session, hrun, ⟨hstore, -⟩, -, rfl⟩ := hyields.succeeds
  refine ⟨session.bench.journal, ?_⟩
  unfold apply
  simp only [Bind.bind, ExceptT.bind, ExceptT.mk, StateT.bind, Work.adopt_owned (hcanon.contains ht),
    ExceptT.bindCont, Reduction.fresh]
  rw [hrun, ← hstore]

end

end TermGraph
