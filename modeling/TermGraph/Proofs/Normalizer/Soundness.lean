import TermGraph.Proofs.Normalizer.Serving

/-!
# Whatever is returned can be derived

Every link that a normalizer keeps stands for steps of conditional rewriting, whichever calls it comes from and
whether these succeeded, so what a call returns can be derived from its term. Rules need to be closed, since a free
index on a side of a rule would be taken for one of the term's.

In a derivation each condition holds by what is known when it is checked. By the substitution of the whole rule it need
not hold: a variable of its left side that is only bound later has been left alone. That makes no difference to rules
that are ordered.

## Main statements

* `World.Serves.steps_to_result` — **what a call returns can be derived from its term**
* `World.not_steps_whole` — a result that cannot be derived with conditions that hold by whole substitutions
-/

namespace TermGraph

namespace World

variable {rewriter : Rewriter} {normalizer scope : Nat} {world : World} {journal : Journal} {t r : Term}
  {session : Session}

/-- **What a call returns can be derived from its term**, whatever the normalizer has done before, if the rules are
closed and the bound variables of the term count the binders of its own store. If the rules are ordered, the conditions
hold by whole substitutions. -/
theorem Serves.steps_to_result (h : Serves rewriter normalizer world journal)
    (hcall : Call rewriter normalizer world journal scope t (.ok r) session) (ht : (world.stores scope).Owns t)
    (hnative : t.tree.Every (fun _ slot => slot.scope = scope) 0) (hclosed : ∀ rule ∈ rewriter.rules, rule.Closed) :
    Steps .known rewriter.rules scope t.tree r.tree ∧
      ((∀ rule ∈ rewriter.rules, rule.Ordered) → Steps .whole rewriter.rules scope t.tree r.tree) := by
  have hsteps := (h.serving.derives hcall ht hclosed (hnative.mono fun _ _ hs => Or.inl hs)).1
  exact ⟨hsteps, fun hordered => Steps.whole_of_known hordered hsteps⟩

/-- `double(x)` becomes `plus(x, x)`, and `apply(f, x)` becomes `pair(y, λ.g(y, %0))` if `f x` comes to `h(y)`. -/
def applying : List Rule.Script :=
  [⟨.fn "double" [.var "x"], .fn "plus" [.var "x", .var "x"], none⟩,
    ⟨.fn "apply" [.var "f", .var "x"],
      .fn "pair" [.var "y", .lambda (.fn "g" [.var "y", .bound (.clamp 0)])],
      some [(.app (.var "f") (.var "x"), .fn "h" [.var "y"])]⟩]

/-- With contraction, `apply(λ.h(double(%0)), %2)` becomes `pair(plus(%2, %2), λ.g(plus(%3, %3), %0))`. -/
theorem steps_by_applying :
    let rules := .contraction :: furniture applying
    ∃ world t r session, Serves (.system rules) 1 world #[] ∧
      Call (.system rules) 1 world #[] 0 t (.ok r) session ∧ (world.stores 0).Owns t ∧
      t.tree = .fn "apply" [.lambda (.fn "h" [.fn "double" [.bound ⟨.clamp 0, 0⟩]]), .bound ⟨.clamp 2, 0⟩] ∧
      r.tree = .fn "pair" [.fn "plus" [.bound ⟨.clamp 2, 0⟩, .bound ⟨.clamp 2, 0⟩],
        .lambda (.fn "g" [.fn "plus" [.bound ⟨.clamp 3, 0⟩, .bound ⟨.clamp 3, 0⟩], .bound ⟨.clamp 0, 0⟩])] ∧
      (∀ rule ∈ rules, rule.Closed ∧ rule.Ordered) ∧
      Steps .known rules 0 t.tree r.tree ∧ Steps .whole rules 0 t.tree r.tree := by
  intro rules
  let tree : Tree Index :=
    .fn "apply" [.lambda (.fn "h" [.fn "double" [.bound (.clamp 0)]]), .bound (.clamp 2)]
  have hrun : passes (Work.plant tree { store := .empty 0 }) fun t bench =>
      passes (Reduction.normalize (.system rules) 12 t (.fresh bench.store)) fun r _ =>
        decide (t.tree = .fn "apply"
            [.lambda (.fn "h" [.fn "double" [.bound ⟨.clamp 0, 0⟩]]), .bound ⟨.clamp 2, 0⟩] ∧
          r.tree = .fn "pair" [.fn "plus" [.bound ⟨.clamp 2, 0⟩, .bound ⟨.clamp 2, 0⟩],
            .lambda (.fn "g" [.fn "plus" [.bound ⟨.clamp 3, 0⟩, .bound ⟨.clamp 3, 0⟩],
              .bound ⟨.clamp 0, 0⟩])]) := by
    decide +kernel
  obtain ⟨t, bench, hplant, hrun⟩ := exists_of_passes hrun
  obtain ⟨r, session, hreturns, htrees⟩ := exists_of_passes hrun
  obtain ⟨httree, hrtree⟩ := of_decide_eq_true htrees
  have ht := ((Work.plant_empty 0 tree).ok hplant).2.2.1
  have hrules : ∀ rule ∈ rules, rule.Closed ∧ rule.Ordered := by decide +kernel
  have hserves := (serves_system (List.Subset.refl rules) tree one_ne_zero).1
  have hcall : Call (.system rules) 1 _ #[] 0 t (.ok r) session :=
    system_call (List.Subset.refl rules) hplant ht hreturns
  have howns := (furnished_plant applying hplant).symm ▸ ht
  obtain ⟨hknown, hwhole⟩ := hserves.steps_to_result hcall howns (by rw [httree]; decide)
    fun rule hr => (hrules rule hr).1
  exact ⟨_, t, r, session, hserves, hcall, howns, httree, hrtree, hrules, hknown,
    hwhole fun rule hr => (hrules rule hr).2⟩

end World

/-! ## Where conditions do not hold by whole substitutions -/

/-- The tree has neither variables nor binders. -/
def Tree.Ground (t : Tree Slot) : Prop := t.binderFree = true ∧ t.vars = []

theorem Tree.ground_fn_iff {symbol : String} {args : List (Tree Slot)} :
    (Tree.fn symbol args).Ground ↔ ∀ t ∈ args, t.Ground := by
  simp only [Ground, binderFree, binderFreeAll_iff, vars, List.eq_nil_iff_forall_not_mem, mem_varsAll]
  grind

theorem Tree.ground_app_iff {f a : Tree Slot} : (Tree.app f a).Ground ↔ f.Ground ∧ a.Ground := by
  simp only [Ground, binderFree, Bool.and_eq_true, vars, List.append_eq_nil_iff]
  grind

/-- A rule with sides has these: `p` becomes `pair(x, y)` if `f(y)` comes to `x` and `a` to `y`. -/
def Rule.Crossed (rule : Rule) : Prop :=
  ∀ sides ∈ rule.sides?, sides.1.template.tree = .fn "pair" [.var "x", .var "y"] ∧
    sides.2.map (fun c => (c.lhs.tree, c.rhs.tree)) = [(.fn "f" [.var "y"], .var "x"), (.fn "a" [], .var "y")]

instance (rule : Rule) : Decidable rule.Crossed := inferInstanceAs (Decidable (∀ sides ∈ rule.sides?, _))

mutual

/-- By such rules, trees without variables and binders only become such trees. -/
theorem Step.ground {rules : List Rule} {own : Nat} (hrules : ∀ rule ∈ rules, rule.Crossed) :
    ∀ {t u : Tree Slot}, Step .whole rules own t u → t.Ground → u.Ground
  | _, _, .argument step, h => by
    have hstep := Step.ground hrules step
    simp only [Tree.ground_fn_iff, List.forall_mem_append, List.forall_mem_cons] at h ⊢
    exact ⟨h.1, hstep h.2.1, h.2.2⟩
  | _, _, .appFunction step, h => by
    have hstep := Step.ground hrules step
    rw [Tree.ground_app_iff] at h ⊢
    exact ⟨hstep h.1, h.2⟩
  | _, _, .appArgument step, h => by
    have hstep := Step.ground hrules step
    rw [Tree.ground_app_iff] at h ⊢
    exact ⟨h.1, hstep h.2⟩
  | _, _, .body _, h => absurd h.1 Bool.false_ne_true
  | _, _, .contraction _, h => absurd (Tree.ground_app_iff.mp h).1.1 Bool.false_ne_true
  | _, _, @Step.rule _ _ _ rule sides conditions mem made θ holds, _ => by
    have hholds := fun p hp => Steps.ground hrules (holds p hp)
    obtain ⟨htemplate, hconditions⟩ := hrules rule mem _ made
    obtain ⟨c, cs, rfl, hc, hcs⟩ := List.map_eq_cons_iff.mp hconditions
    obtain ⟨d, ds, rfl, hd, hds⟩ := List.map_eq_cons_iff.mp hcs
    rw [Prod.mk.injEq] at hc hd
    simp only [Condition.inOrder, List.forall_mem_cons, hc, hd, Extent.limit, Tree.fill, Tree.fillAll,
      Tree.raise_zero, Tree.ground_fn_iff] at hholds
    -- the second condition keeps variables out of `y`, and so the first keeps them out of `x`
    obtain ⟨hx, hy, -⟩ := hholds
    have hground : (θ "y").Ground := hy (by simp)
    simp only [htemplate, Extent.limit, Tree.fill, Tree.fillAll, Tree.raise_zero, Tree.ground_fn_iff,
      List.forall_mem_cons]
    exact ⟨hx ⟨hground, by simp⟩, hground, by simp⟩

theorem Steps.ground {rules : List Rule} {own : Nat} (hrules : ∀ rule ∈ rules, rule.Crossed) :
    ∀ {t u : Tree Slot}, Steps .whole rules own t u → t.Ground → u.Ground
  | _, _, .refl _, h => h
  | _, _, .head step steps, h => Steps.ground hrules steps (Step.ground hrules step h)

end

namespace World

/-- The rule by which `p` becomes `pair(x, y)` if `f(y)` comes to `x` and `a` to `y`. -/
def crossed : Rule.Script :=
  ⟨.fn "p" [], .fn "pair" [.var "x", .var "y"],
    some [(.fn "f" [.var "y"], .var "x"), (.fn "a" [], .var "y")]⟩

/-- For `p` the call returns `pair(f(y), a)`, where the variable of the first condition has been left alone. By whole
substitutions `p` only rewrites to trees without variables. -/
theorem not_steps_whole :
    let rules := .contraction :: furniture [crossed]
    ∃ world t r session, Serves (.system rules) 1 world #[] ∧
      Call (.system rules) 1 world #[] 0 t (.ok r) session ∧ (world.stores 0).Owns t ∧
      t.tree.Every (fun _ slot => slot.scope = 0) 0 ∧ (∀ rule ∈ rules, rule.Closed) ∧
      t.tree = .fn "p" [] ∧ r.tree = .fn "pair" [.fn "f" [.var "y"], .fn "a" []] ∧
      ¬ Steps .whole rules 0 t.tree r.tree := by
  intro rules
  have hrun : passes (Work.plant (.fn "p" []) { store := .empty 0 }) fun t bench =>
      passes (Reduction.normalize (.system rules) 12 t (.fresh bench.store)) fun r _ =>
        decide (t.tree = .fn "p" [] ∧ r.tree = .fn "pair" [.fn "f" [.var "y"], .fn "a" []]) := by
    decide +kernel
  obtain ⟨t, bench, hplant, hrun⟩ := exists_of_passes hrun
  obtain ⟨r, session, hreturns, htrees⟩ := exists_of_passes hrun
  obtain ⟨httree, hrtree⟩ := of_decide_eq_true htrees
  have ht := ((Work.plant_empty 0 (.fn "p" [])).ok hplant).2.2.1
  have hrules : ∀ rule ∈ rules, rule.Crossed ∧ rule.Closed := by decide +kernel
  have hserves := (serves_system (List.Subset.refl rules) (.fn "p" []) one_ne_zero).1
  have hcall : Call (.system rules) 1 _ #[] 0 t (.ok r) session :=
    system_call (List.Subset.refl rules) hplant ht hreturns
  refine ⟨_, t, r, session, hserves, hcall, (furnished_plant [crossed] hplant).symm ▸ ht, by rw [httree]; decide,
    fun rule hr => (hrules rule hr).2, httree, hrtree, fun hsteps => ?_⟩
  rw [httree, hrtree] at hsteps
  have hground := Steps.ground (fun rule hr => (hrules rule hr).1) hsteps ⟨rfl, rfl⟩
  exact List.cons_ne_nil _ _ hground.2

end World

end TermGraph
