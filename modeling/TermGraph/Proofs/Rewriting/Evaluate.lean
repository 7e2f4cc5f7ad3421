import TermGraph.Proofs.Tree.Matching
import TermGraph.Rule.Basic

/-!
# Innermost evaluation of trees

The reference for normalization. A tree is evaluated by evaluating its children from left to right, rewriting
the result at the root by the first rule that applies, and evaluating the reduct; it is a value when no
rule applies. Nothing is shared, cached or linked.

Evaluation may go on forever, so it is bounded by a number of nested steps; a tree has a value if it has one
within some bound. A rule whose template contains the rule's own pattern has no reduct, since the pattern
stands for the very term that is being replaced, and neither has a condition that contains it an instance.
There evaluation is stuck, just as it is if the evaluation of a condition is.

## Main statements

* `evaluate_mono`, `evaluate_unique` — a larger bound changes no value
* `evaluate_value` — a value evaluates to itself
* `Leap.of_children`, `Leap.of_step` — **what the two kinds of steps of a normalization mean for values**
-/

namespace TermGraph

/-! ## Level by level -/

namespace Shape

variable {α β : Type} {f : α → Option β}

/-- The same level over what `f` makes of the children, from left to right, if it makes something of each. -/
def traverse (f : α → Option β) : Shape α → Option (Shape β)
  | .var name => some (.var name)
  | .const value => some (.const value)
  | .fn symbol args => (args.mapM f).map (.fn symbol)
  | .app function argument => (f function).bind fun g => (f argument).map (.app g)
  | .lambda body => (f body).map .lambda
  | .bound index scope => some (.bound index scope)

theorem mapM_eq_some {as : List α} {bs : List β} (h : as.mapM f = some bs) (g : α → β)
    (hg : ∀ a b, f a = some b → g a = b) : (∀ a ∈ as, f a = some (g a)) ∧ bs = as.map g := by
  induction as generalizing bs with
  | nil =>
    cases h
    simp
  | cons a as ih =>
    simp only [List.mapM_cons, bind, Option.bind_eq_some_iff, pure, Option.some.injEq] at h
    obtain ⟨b, hb, bs', hbs, rfl⟩ := h
    obtain ⟨hmem, rfl⟩ := ih hbs
    refine ⟨fun c hc => ?_, by rw [List.map_cons, hg a b hb]⟩
    rcases List.mem_cons.mp hc with rfl | hc
    · rw [hb, hg _ b hb]
    · exact hmem c hc

theorem mapM_of_forall {as : List α} {g : α → β} (h : ∀ a ∈ as, f a = some (g a)) :
    as.mapM f = some (as.map g) := by
  induction as with
  | nil => rfl
  | cons a as ih =>
    rw [List.mapM_cons, h a List.mem_cons_self, ih fun b hb => h b (List.mem_cons_of_mem _ hb)]
    rfl

/-- Where `f` makes something of each child, the level is mapped. -/
theorem traverse_of_forall {s : Shape α} {g : α → β} (h : ∀ a ∈ s.children, f a = some (g a)) :
    s.traverse f = some (s.map g) := by
  cases s with
  | fn symbol args =>
    rw [traverse, mapM_of_forall (show ∀ a ∈ args, f a = some (g a) from h), Option.map_some, map]
  | app function argument =>
    rw [traverse, h function (by simp [children]), h argument (by simp [children]),
      Option.bind_some, Option.map_some, map]
  | lambda body => rw [traverse, h body (by simp [children]), Option.map_some, map]
  | _ => rfl

/-- Only then is there a result. -/
theorem forall_of_traverse {s : Shape α} {s' : Shape α} {f : α → Option α}
    (h : s.traverse f = some s') :
    ∃ g : α → α, (∀ a ∈ s.children, f a = some (g a)) ∧ s' = s.map g := by
  refine ⟨fun a => (f a).getD a, ?_⟩
  have hg : ∀ a b, f a = some b → (f a).getD a = b := fun a b hb => by rw [hb, Option.getD_some]
  cases s with
  | fn symbol args =>
    rw [traverse, Option.map_eq_some_iff] at h
    obtain ⟨bs, hbs, rfl⟩ := h
    obtain ⟨hmem, rfl⟩ := mapM_eq_some hbs _ hg
    exact ⟨hmem, rfl⟩
  | app function argument =>
    simp only [traverse, Option.bind_eq_some_iff, Option.map_eq_some_iff] at h
    obtain ⟨b, hb, c, hc, rfl⟩ := h
    simp [children, map, hb, hc]
  | lambda body =>
    rw [traverse, Option.map_eq_some_iff] at h
    obtain ⟨b, hb, rfl⟩ := h
    simp [children, map, hb]
  | _ =>
    cases h
    simp [children, map]

end Shape

/-! ## Rules on trees -/

/-- What is made of a tree, if anything is. -/
abbrev Evaluator := Tree Slot → Option (Tree Slot)

/-- The other evaluator gives the same values and may give more. -/
def Evaluator.Extends (e e' : Evaluator) : Prop := ∀ t v, e t = some v → e' t = some v

/-- Whether the condition holds, and what the variables stand for then: `none` if there is no answer, and
`some none` if the condition does not hold. -/
def Condition.check? (e : Evaluator) (own : Nat) (pattern : Tree Slot) (c : Condition) (σ : Assignment) :
    Option (Option Assignment) :=
  if pattern.occurs c.lhs.tree then none
  else (e (c.lhs.tree.instantiate own c.lhs.scope σ)).map fun v => c.rhs.tree.match? v σ

/-- Whether the conditions hold one after the other. -/
def Condition.checkAll? (e : Evaluator) (own : Nat) (pattern : Tree Slot) :
    List Condition → Assignment → Option (Option Assignment)
  | [], σ => some (some σ)
  | c :: cs, σ =>
    match c.check? e own pattern σ with
    | none => none
    | some none => some none
    | some (some σ') => checkAll? e own pattern cs σ'

/-- The reduct of a tree by a pattern rule under conditions: `none` if there is no answer, and `some none` if the
rule does not apply. -/
def PatternRule.step? (e : Evaluator) (own : Nat) (rule : PatternRule) (conditions : List Condition)
    (t : Tree Slot) : Option (Option (Tree Slot)) :=
  match rule.pattern.tree.match? t .empty with
  | none => some none
  | some σ =>
    match Condition.checkAll? e own rule.pattern.tree conditions σ with
    | none => none
    | some none => some none
    | some (some σ') =>
      if rule.pattern.tree.occurs rule.template.tree then none
      else some (some (rule.template.tree.instantiate own rule.template.scope σ'))

/-- The contraction of a lambda next to its argument. -/
def Tree.contraction? (own : Nat) : Tree Slot → Option (Tree Slot)
  | .app (.lambda body) argument => some (contract own body argument)
  | _ => none

/-- The reduct of a tree by a rule. -/
def Rule.step? (e : Evaluator) (own : Nat) : Rule → Tree Slot → Option (Option (Tree Slot))
  | .pattern rule, t => rule.step? e own [] t
  | .conditional rule conditions _, t => rule.step? e own conditions t
  | .contraction, t => some (t.contraction? own)

/-- The reduct of a tree by the first of the rules that applies. -/
def Rule.firstStep? (e : Evaluator) (own : Nat) : List Rule → Tree Slot → Option (Option (Tree Slot))
  | [], _ => some none
  | rule :: rules, t =>
    match rule.step? e own t with
    | none => none
    | some none => firstStep? e own rules t
    | some (some u) => some (some u)

theorem Rule.firstStep?_singleton (e : Evaluator) (own : Nat) (rule : Rule) (t : Tree Slot) :
    firstStep? e own [rule] t = rule.step? e own t := by
  rw [firstStep?]
  split
  · next h => exact h.symm
  · next h => exact h.symm
  · next h => exact h.symm

section

variable {e e' : Evaluator} {own : Nat}

/-- A condition without the pattern is checked against the value of its left side. -/
theorem Condition.check?_eq {pattern : Tree Slot} {c : Condition} {σ : Assignment} {v : Tree Slot}
    (hocc : pattern.occurs c.lhs.tree = false)
    (hv : e (c.lhs.tree.instantiate own c.lhs.scope σ) = some v) :
    c.check? e own pattern σ = some (c.rhs.tree.match? v σ) := by
  rw [check?, if_neg (by rw [hocc]; exact Bool.false_ne_true), hv, Option.map_some]

/-- What it takes for an answer to whether conditions hold. -/
theorem Condition.of_checkAll? {pattern : Tree Slot} {c : Condition} {cs : List Condition} {σ : Assignment}
    {r : Option Assignment} (h : checkAll? e own pattern (c :: cs) σ = some r) :
    pattern.occurs c.lhs.tree = false ∧
      ∃ v, e (c.lhs.tree.instantiate own c.lhs.scope σ) = some v ∧
        ∀ τ, c.rhs.tree.match? v σ = some τ → ∃ r', checkAll? e own pattern cs τ = some r' := by
  rw [checkAll?, check?] at h
  cases hocc : pattern.occurs c.lhs.tree with
  | true => simp [hocc] at h
  | false =>
    cases hv : e (c.lhs.tree.instantiate own c.lhs.scope σ) with
    | none => simp [hocc, hv] at h
    | some v =>
      refine ⟨rfl, v, rfl, fun τ hτ => ⟨r, ?_⟩⟩
      simpa [hocc, hv, hτ] using h

/-- What it takes for an answer to whether a rule whose pattern matches applies. -/
theorem PatternRule.of_step? {rule : PatternRule} {conditions : List Condition} {t : Tree Slot}
    {r : Option (Tree Slot)} {σ : Assignment} (h : rule.step? e own conditions t = some r)
    (hm : rule.pattern.tree.match? t .empty = some σ) :
    ∃ σ', Condition.checkAll? e own rule.pattern.tree conditions σ = some σ' ∧
      ∀ τ, σ' = some τ → rule.pattern.tree.occurs rule.template.tree = false := by
  rw [step?, hm] at h
  cases hc : Condition.checkAll? e own rule.pattern.tree conditions σ with
  | none => simp [hc] at h
  | some σ' =>
    refine ⟨σ', rfl, fun τ hτ => Bool.eq_false_iff.mpr fun hocc => ?_⟩
    simp [hc, hτ, hocc] at h

/-- What it takes for an answer to which rule applies first. -/
theorem Rule.of_firstStep? {rule : Rule} {rules : List Rule} {t : Tree Slot} {r : Option (Tree Slot)}
    (h : firstStep? e own (rule :: rules) t = some r) :
    ∃ s, rule.step? e own t = some s ∧ (s = none → ∃ r', firstStep? e own rules t = some r') := by
  rw [firstStep?] at h
  cases hs : rule.step? e own t with
  | none => simp [hs] at h
  | some s =>
    refine ⟨s, rfl, fun hnone => ⟨r, ?_⟩⟩
    simpa [hs, hnone] using h

theorem Condition.check?_of_extends (h : e.Extends e') {pattern : Tree Slot} {c : Condition}
    {σ : Assignment} {r : Option Assignment} (hr : c.check? e own pattern σ = some r) :
    c.check? e' own pattern σ = some r := by
  unfold check? at hr ⊢
  split
  · next ho => simp [ho] at hr
  · next ho =>
    rw [if_neg ho, Option.map_eq_some_iff] at hr
    obtain ⟨v, hv, rfl⟩ := hr
    rw [h _ v hv, Option.map_some]

theorem Condition.checkAll?_of_extends (h : e.Extends e') {pattern : Tree Slot} :
    ∀ {cs : List Condition} {σ : Assignment} {r : Option Assignment},
      checkAll? e own pattern cs σ = some r → checkAll? e' own pattern cs σ = some r
  | [], _, _, hr => hr
  | c :: cs, σ, r, hr => by
    rw [checkAll?] at hr ⊢
    split at hr
    · cases hr
    · next hc =>
      rw [check?_of_extends h hc]
      exact hr
    · next σ' hc =>
      rw [check?_of_extends h hc]
      exact checkAll?_of_extends h hr

theorem PatternRule.step?_of_extends (h : e.Extends e') {rule : PatternRule}
    {conditions : List Condition} {t : Tree Slot} {r : Option (Tree Slot)}
    (hr : rule.step? e own conditions t = some r) : rule.step? e' own conditions t = some r := by
  unfold step? at hr ⊢
  cases hm : rule.pattern.tree.match? t .empty with
  | none => simpa only [hm] using hr
  | some σ =>
    simp only [hm] at hr ⊢
    split at hr
    · cases hr
    · next hc =>
      rw [Condition.checkAll?_of_extends h hc]
      exact hr
    · next σ' hc =>
      rw [Condition.checkAll?_of_extends h hc]
      exact hr

theorem Rule.step?_of_extends (h : e.Extends e') {rule : Rule} {t : Tree Slot} {r : Option (Tree Slot)}
    (hr : rule.step? e own t = some r) : rule.step? e' own t = some r := by
  cases rule with
  | pattern rule =>
    rw [step?] at hr ⊢
    exact PatternRule.step?_of_extends h hr
  | conditional rule conditions _ =>
    rw [step?] at hr ⊢
    exact PatternRule.step?_of_extends h hr
  | contraction => exact hr

/-- A better evaluator changes no reduct. -/
theorem Rule.firstStep?_of_extends (h : e.Extends e') : ∀ {rules : List Rule} {t : Tree Slot}
    {r : Option (Tree Slot)}, firstStep? e own rules t = some r → firstStep? e' own rules t = some r
  | [], _, _, hr => hr
  | rule :: rules, t, r, hr => by
    rw [firstStep?] at hr ⊢
    split at hr
    · cases hr
    · next hs =>
      rw [step?_of_extends h hs]
      exact firstStep?_of_extends h hr
    · next u hs =>
      rw [step?_of_extends h hs]
      exact hr

end

/-! ## Evaluation -/

/-- The value of a tree in the store `own`, within so many nested steps. -/
def evaluate (rules : List Rule) (own : Nat) : Nat → Tree Slot → Option (Tree Slot)
  | 0, _ => none
  | n + 1, t =>
    match t.shape.traverse (evaluate rules own n) with
    | none => none
    | some s =>
      match Rule.firstStep? (evaluate rules own n) own rules (.ofShape s) with
      | none => none
      | some none => some (.ofShape s)
      | some (some u) => evaluate rules own n u

/-- Evaluation of the tree comes to an end with the value. -/
def Evaluates (rules : List Rule) (own : Nat) (t v : Tree Slot) : Prop :=
  ∃ n, evaluate rules own n t = some v

variable {rules : List Rule} {own : Nat} {t u v w : Tree Slot}

/-- What it takes for a tree to have a value. -/
theorem evaluate_succ_iff {n : Nat} : evaluate rules own (n + 1) t = some v ↔
    ∃ g : Tree Slot → Tree Slot, (∀ c ∈ t.children, evaluate rules own n c = some (g c)) ∧
      ∃ r, Rule.firstStep? (evaluate rules own n) own rules (.ofShape (t.shape.map g)) = some r ∧
        match r with
        | none => v = .ofShape (t.shape.map g)
        | some u => evaluate rules own n u = some v := by
  constructor
  · intro h
    rw [evaluate] at h
    split at h
    · cases h
    · next s hs =>
      obtain ⟨g, hg, rfl⟩ := Shape.forall_of_traverse hs
      refine ⟨g, hg, ?_⟩
      split at h
      · cases h
      · next hr =>
        cases h
        exact ⟨none, hr, rfl⟩
      · next u hr => exact ⟨some u, hr, h⟩
  · rintro ⟨g, hg, r, hr, hv⟩
    rw [evaluate, Shape.traverse_of_forall hg]
    cases r with
    | none => simp only [hr, hv]
    | some u => simpa only [hr] using hv

/-- One more step changes no value. -/
theorem evaluate_succ {n : Nat} : ∀ {t v : Tree Slot}, evaluate rules own n t = some v →
    evaluate rules own (n + 1) t = some v := by
  induction n with
  | zero => intro t v h; cases h
  | succ n ih =>
    intro t v h
    obtain ⟨g, hg, r, hr, hv⟩ := evaluate_succ_iff.mp h
    refine evaluate_succ_iff.mpr ⟨g, fun c hc => ih (hg c hc), r, ?_, ?_⟩
    · exact Rule.firstStep?_of_extends (fun _ _ he => ih he) hr
    · cases r with
      | none => exact hv
      | some u => exact ih hv

/-- A larger bound changes no value. -/
theorem evaluate_mono {n m : Nat} (hle : n ≤ m) (h : evaluate rules own n t = some v) :
    evaluate rules own m t = some v := by
  induction hle with
  | refl => exact h
  | step _ ih => exact evaluate_succ ih

/-- A tree that has a value has it within a least bound. -/
theorem evaluate_least {n : Nat} (h : evaluate rules own n t = some v) :
    ∃ k, k < n ∧ evaluate rules own (k + 1) t = some v ∧ evaluate rules own k t = none := by
  induction n with
  | zero => cases h
  | succ n ih =>
    cases hn : evaluate rules own n t with
    | none => exact ⟨n, Nat.lt_succ_self n, h, hn⟩
    | some w =>
      have hvw : some w = some v := (evaluate_succ hn).symm.trans h
      obtain ⟨k, hk, hsome, hnone⟩ := ih (hn.trans hvw)
      exact ⟨k, Nat.lt_succ_of_lt hk, hsome, hnone⟩

theorem evaluate_extends {n m : Nat} (hle : n ≤ m) :
    Evaluator.Extends (evaluate rules own n) (evaluate rules own m) :=
  fun _ _ h => evaluate_mono hle h

/-- A tree has one value. -/
theorem evaluate_unique {n m : Nat} (h : evaluate rules own n t = some v)
    (h' : evaluate rules own m t = some w) : v = w := by
  have h1 := evaluate_mono (Nat.le_max_left n m) h
  have h2 := evaluate_mono (Nat.le_max_right n m) h'
  exact Option.some.inj (h1.symm.trans h2)

/-- Two bounds give the same answer, where both give one. -/
theorem Condition.checkAll?_unique {n m : Nat} {pattern : Tree Slot} {cs : List Condition} {σ : Assignment}
    {r r' : Option Assignment} (h : checkAll? (evaluate rules own n) own pattern cs σ = some r)
    (h' : checkAll? (evaluate rules own m) own pattern cs σ = some r') : r = r' := by
  have h1 := checkAll?_of_extends (evaluate_extends (Nat.le_max_left n m)) h
  have h2 := checkAll?_of_extends (evaluate_extends (Nat.le_max_right n m)) h'
  exact Option.some.inj (h1.symm.trans h2)

theorem Rule.step?_unique {n m : Nat} {rule : Rule} {r r' : Option (Tree Slot)}
    (h : rule.step? (evaluate rules own n) own t = some r)
    (h' : rule.step? (evaluate rules own m) own t = some r') : r = r' := by
  have h1 := step?_of_extends (evaluate_extends (Nat.le_max_left n m)) h
  have h2 := step?_of_extends (evaluate_extends (Nat.le_max_right n m)) h'
  exact Option.some.inj (h1.symm.trans h2)

theorem Evaluates.unique (h : Evaluates rules own t v) (h' : Evaluates rules own t w) : v = w := by
  obtain ⟨n, h⟩ := h
  obtain ⟨m, h'⟩ := h'
  exact evaluate_unique h h'

/-- A value evaluates to itself, and in no more steps than it took to find it. -/
theorem evaluate_value {n : Nat} : ∀ {t v : Tree Slot}, evaluate rules own n t = some v →
    evaluate rules own n v = some v := by
  induction n with
  | zero => intro t v h; cases h
  | succ n ih =>
    intro t v h
    obtain ⟨g, hg, r, hr, hv⟩ := evaluate_succ_iff.mp h
    cases r with
    | some u => exact evaluate_succ (ih hv)
    | none =>
      subst hv
      -- the children of the value are values, so evaluating them again changes nothing
      have hself : (Shape.map id (t.shape.map g)) = t.shape.map g := by
        rw [Shape.map_map]
        rfl
      refine evaluate_succ_iff.mpr ⟨id, fun c hc => ?_, none, ?_, ?_⟩
      · rw [Tree.children, Tree.shape_ofShape, Shape.children_map, List.mem_map] at hc
        obtain ⟨a, ha, rfl⟩ := hc
        exact ih (hg a ha)
      · rw [Tree.shape_ofShape, hself]
        exact hr
      · rw [Tree.shape_ofShape, hself]

theorem Evaluates.value (h : Evaluates rules own t v) : Evaluates rules own v v := by
  obtain ⟨n, h⟩ := h
  exact ⟨n, evaluate_value h⟩

/-- Finitely many trees have their values within one bound. -/
theorem exists_bound {g : Tree Slot → Tree Slot} {ts : List (Tree Slot)}
    (h : ∀ c ∈ ts, Evaluates rules own c (g c)) :
    ∃ n, ∀ c ∈ ts, evaluate rules own n c = some (g c) := by
  induction ts with
  | nil => exact ⟨0, by simp⟩
  | cons t ts ih =>
    obtain ⟨n, hn⟩ := ih fun c hc => h c (List.mem_cons_of_mem _ hc)
    obtain ⟨m, hm⟩ := h t List.mem_cons_self
    refine ⟨max n m, fun c hc => ?_⟩
    rcases List.mem_cons.mp hc with rfl | hc
    · exact evaluate_mono (Nat.le_max_right n m) hm
    · exact evaluate_mono (Nat.le_max_left n m) (hn c hc)

/-! ## Steps of a normalization -/

/-- The children of the tree are values, so that the tree is ready to be rewritten at the root. -/
def Ripe (rules : List Rule) (own : Nat) (t : Tree Slot) : Prop :=
  ∀ c ∈ t.children, Evaluates rules own c c

/-- The tree `t` may be replaced by `u`: both have the same value, `u` has it within any bound within which
`t` has it, and within a smaller one if `t` is ready to be rewritten. -/
structure Leap (rules : List Rule) (own : Nat) (t u : Tree Slot) : Prop where
  forth : ∀ {n : Nat} {v : Tree Slot}, evaluate rules own n t = some v → evaluate rules own n u = some v
  back : ∀ {v : Tree Slot}, Evaluates rules own u v → Evaluates rules own t v
  descends : ∀ {n : Nat} {v : Tree Slot}, Ripe rules own t → evaluate rules own (n + 1) t = some v →
    evaluate rules own n u = some v

theorem Leap.trans (h : Leap rules own t u) (h' : Leap rules own u w) : Leap rules own t w where
  forth hv := h'.forth (h.forth hv)
  back hv := h.back (h'.back hv)
  descends hr hv := h'.forth (h.descends hr hv)

/-- Two trees of which one is ready do not replace each other while a value is being found. -/
theorem Leap.spares (h : Leap rules own t u) (h' : Leap rules own u t)
    (hr : Ripe rules own t ∨ Ripe rules own u) {n : Nat} (hv : evaluate rules own (n + 1) t = some v) :
    evaluate rules own n t = some v := by
  rcases hr with hr | hr
  · exact h'.forth (h.descends hr hv)
  · exact h'.descends hr (h.forth hv)

/-- The children of a tree that is ready are evaluated in some bound, and nothing changes. -/
theorem Ripe.evaluate_iff (hr : Ripe rules own t) {n : Nat} : evaluate rules own (n + 1) t = some v ↔
    (∀ c ∈ t.children, evaluate rules own n c = some c) ∧
      ∃ r, Rule.firstStep? (evaluate rules own n) own rules t = some r ∧
        match r with
        | none => v = t
        | some u => evaluate rules own n u = some v := by
  have hid : Tree.ofShape (t.shape.map id) = t := by
    rw [show t.shape.map id = t.shape by cases t.shape <;> simp [Shape.map], Tree.ofShape_shape]
  rw [evaluate_succ_iff]
  constructor
  · rintro ⟨g, hg, r, hstep, hv⟩
    have hgid : ∀ c ∈ t.shape.children, g c = id c := fun c hc => by
      obtain ⟨m, hm⟩ := hr c hc
      exact evaluate_unique (hg c hc) hm
    rw [Shape.map_congr hgid, hid] at hstep hv
    exact ⟨fun c hc => by rw [hg c hc, hgid c hc, id], r, hstep, hv⟩
  · rintro ⟨hc, r, hstep, hv⟩
    refine ⟨id, hc, r, ?_, ?_⟩
    · rw [hid]
      exact hstep
    · rw [hid]
      exact hv

/-- **A tree may be replaced by its reduct at the root once its children are values.** -/
theorem Leap.of_step (hr : Ripe rules own t) {n : Nat}
    (h : Rule.firstStep? (evaluate rules own n) own rules t = some (some u)) : Leap rules own t u := by
  have hdescends : ∀ {m : Nat} {v : Tree Slot}, evaluate rules own (m + 1) t = some v →
      evaluate rules own m u = some v := by
    intro m v hv
    obtain ⟨-, r, hstep, hrest⟩ := hr.evaluate_iff.mp hv
    -- both bounds find the same reduct
    have h1 := Rule.firstStep?_of_extends (evaluate_extends (Nat.le_max_left n m)) h
    have h2 := Rule.firstStep?_of_extends (evaluate_extends (Nat.le_max_right n m)) hstep
    have he : r = some u := Option.some.inj (h2.symm.trans h1)
    subst he
    exact hrest
  refine ⟨fun {m v} hv => ?_, fun {v} hv => ?_, fun _ hv => hdescends hv⟩
  · cases m with
    | zero => cases hv
    | succ m => exact evaluate_succ (hdescends hv)
  · obtain ⟨m, hv⟩ := hv
    obtain ⟨k, hk⟩ := exists_bound (g := id) hr
    refine ⟨max (max n m) k + 1, hr.evaluate_iff.mpr ⟨fun c hc => ?_, some u, ?_, ?_⟩⟩
    · exact evaluate_mono (Nat.le_max_right _ k) (hk c hc)
    · exact Rule.firstStep?_of_extends (evaluate_extends (by omega)) h
    · exact evaluate_mono (by omega) hv

/-- **A tree may be replaced by the tree over the values of its children, if that changes anything.** -/
theorem Leap.of_children {g : Tree Slot → Tree Slot} (hg : ∀ c ∈ t.children, Evaluates rules own c (g c))
    (hne : ∃ c ∈ t.children, g c ≠ c) : Leap rules own t (.ofShape (t.shape.map g)) := by
  -- the children of the other tree are the values
  have hripe : Ripe rules own (.ofShape (t.shape.map g)) := by
    intro c hc
    rw [Tree.children, Tree.shape_ofShape, Shape.children_map, List.mem_map] at hc
    obtain ⟨a, ha, rfl⟩ := hc
    exact (hg a ha).value
  refine ⟨fun {n v} hv => ?_, fun {v} hv => ?_, fun {n v} hr _ => ?_⟩
  · cases n with
    | zero => cases hv
    | succ n =>
      obtain ⟨k, hk, r, hstep, hrest⟩ := evaluate_succ_iff.mp hv
      have hkg : ∀ c ∈ t.shape.children, k c = g c := fun c hc =>
        Evaluates.unique ⟨n, hk c hc⟩ (hg c hc)
      rw [Shape.map_congr hkg] at hstep hrest
      refine hripe.evaluate_iff.mpr ⟨fun c hc => ?_, r, hstep, hrest⟩
      rw [Tree.children, Tree.shape_ofShape, Shape.children_map, List.mem_map] at hc
      obtain ⟨a, ha, rfl⟩ := hc
      rw [← hkg a ha]
      exact evaluate_value (hk a ha)
  · obtain ⟨n, hv⟩ := hv
    cases n with
    | zero => cases hv
    | succ n =>
      obtain ⟨-, r, hstep, hrest⟩ := hripe.evaluate_iff.mp hv
      obtain ⟨k, hk⟩ := exists_bound hg
      refine ⟨max n k + 1, evaluate_succ_iff.mpr ⟨g, fun c hc => ?_, r, ?_, ?_⟩⟩
      · exact evaluate_mono (Nat.le_max_right n k) (hk c hc)
      · exact Rule.firstStep?_of_extends (evaluate_extends (Nat.le_max_left n k)) hstep
      · cases r with
        | none => exact hrest
        | some u => exact evaluate_mono (Nat.le_max_left n k) hrest
  · -- were the tree ready, its children would be their own values already
    obtain ⟨c, hc, hgc⟩ := hne
    exact absurd ((hg c hc).unique (hr c hc)) hgc

/-- The same with the children left open: `f` gives them and `f'` their values. -/
theorem Leap.of_shape {α : Type} {s : Shape α} {f f' : α → Tree Slot}
    (h : ∀ a ∈ s.children, Evaluates rules own (f a) (f' a)) (hne : ∃ a ∈ s.children, f' a ≠ f a) :
    Leap rules own (.ofShape (s.map f)) (.ofShape (s.map f')) := by
  classical
  -- the value of a tree that has one
  let value : Tree Slot → Tree Slot := fun c => if hc : ∃ v, Evaluates rules own c v then hc.choose else c
  have hvalue : ∀ a ∈ s.children, value (f a) = f' a := by
    intro a ha
    have hex : ∃ v, Evaluates rules own (f a) v := ⟨_, h a ha⟩
    simp only [value, dif_pos hex]
    exact hex.choose_spec.unique (h a ha)
  have hchildren : (Tree.ofShape (s.map f)).children = s.children.map f := by
    rw [Tree.children, Tree.shape_ofShape, Shape.children_map]
  have hmap : (s.map f).map value = s.map f' := by
    rw [Shape.map_map]
    exact Shape.map_congr hvalue
  have hleap : Leap rules own (.ofShape (s.map f))
      (.ofShape ((Tree.ofShape (s.map f)).shape.map value)) := by
    refine Leap.of_children (fun c hc => ?_) ?_
    · rw [hchildren, List.mem_map] at hc
      obtain ⟨a, ha, rfl⟩ := hc
      rw [hvalue a ha]
      exact h a ha
    · obtain ⟨a, ha, hfa⟩ := hne
      refine ⟨f a, ?_, by rwa [hvalue a ha]⟩
      rw [hchildren]
      exact List.mem_map_of_mem ha
  rwa [Tree.shape_ofShape, hmap] at hleap

/-- A tree that is ready and that no rule rewrites is a value. -/
theorem Ripe.evaluates_self (hr : Ripe rules own t) {n : Nat}
    (h : Rule.firstStep? (evaluate rules own n) own rules t = some none) : Evaluates rules own t t := by
  obtain ⟨k, hk⟩ := exists_bound (g := id) hr
  refine ⟨max n k + 1, hr.evaluate_iff.mpr ⟨fun c hc => ?_, none, ?_, rfl⟩⟩
  · exact evaluate_mono (Nat.le_max_right n k) (hk c hc)
  · exact Rule.firstStep?_of_extends (evaluate_extends (Nat.le_max_left n k)) h

end TermGraph
