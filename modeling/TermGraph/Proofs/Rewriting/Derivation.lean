import TermGraph.Proofs.Rewriting.Conditional
import TermGraph.Proofs.Rewriting.Custody

/-!
# Derivations

A rule whose sides have no free bound variables turns trees of a store into trees of the store. There the conditions
of a rule can be checked one after the other: matching the pattern and the right sides finds a substitution by which
every condition holds, each left side being taken with what was known when it was checked.

`Derives` is what every link of a normalizer is to say. It is closed under all that a normalizer does with links.

## Main statements

* `Tree.Closed.native_fill` — instances of closed trees stay in the store
* `Condition.Chain.checked` — conditions that hold in order hold by the substitution that is found
* `Derives.of_shape`, `Derives.of_contraction`, `Derives.of_rule` — **the three ways to a derivation**
-/

namespace TermGraph

/-! ## Closed rules -/

/-- All terms that the rule is made of. -/
def Rule.terms (rule : Rule) : List Term :=
  match rule.sides? with
  | some (sides, conditions) => sides.pattern :: sides.template :: conditions.flatMap fun c => [c.lhs, c.rhs]
  | none => []

/-- Every bound variable is bound by a lambda of the tree, whose binders belong to the scope. -/
def Tree.Closed (scope : Nat) (t : Tree Slot) : Prop :=
  t.Every (fun depth slot => slot.scope = scope ∧ slot.index.val < depth) 0

instance (scope : Nat) (t : Tree Slot) : Decidable (t.Closed scope) :=
  inferInstanceAs (Decidable (t.Every _ 0))

/-- The sides of the rule and of its conditions have no free bound variables. -/
def Rule.Closed (rule : Rule) : Prop := ∀ q ∈ rule.terms, q.tree.Closed q.scope

instance (rule : Rule) : Decidable rule.Closed := inferInstanceAs (Decidable (∀ q ∈ rule.terms, _))

variable {rules : List Rule} {own scope : Nat} {t u v : Tree Slot}

/-! ## Trees of one store -/

/-- The variable counts binders of the store, or it has the last index, which belongs to no binder. -/
def Slot.Native (own : Nat) (slot : Slot) : Prop := slot.scope = own ∨ slot.index = Index.last

theorem Slot.Native.spared {slot : Slot} (h : slot.Native own) (hne : scope ≠ own) : slot.Spared scope :=
  fun hs => h.resolve_left fun ho => hne (hs.symm.trans ho)

namespace Tree

/-- All bound variables count binders of the store. -/
def Native (own : Nat) (t : Tree Slot) : Prop := t.Every (fun _ slot => slot.Native own) 0

theorem Native.depth (h : t.Native own) (depth : Nat) : t.Every (fun _ slot => slot.Native own) depth :=
  every_depth.mpr h

/-- What is built of trees of the store is a tree of the store. -/
theorem native_ofShape_iff {s : Shape (Tree Slot)} : (ofShape s).Native own ↔
    (∀ c ∈ s.children, c.Native own) ∧ ∀ index scope, s = .bound index scope → Slot.Native own ⟨index, scope⟩ := by
  cases s <;> simp [ofShape, Shape.children, Native, Every, everyAll_iff, every_depth]

theorem native_shiftSlot {slot : Slot} {delta : Int} {depth d : Nat} (h : slot.Native own) :
    (shiftSlot own delta depth slot).Every (fun _ slot => slot.Native own) d := by
  unfold shiftSlot
  split
  · exact Or.inl rfl
  · exact h

theorem Native.shift {delta : Int} {depth : Nat} (h : t.Native own) : (t.shift own delta depth).Native own :=
  every_depth.mp (every_mapBound (fun _ _ hs => native_shiftSlot hs) (h.depth depth))

theorem Native.raise (h : t.Native own) (n : Nat) : (t.raise own n).Native own := h.shift

/-- Contraction stays in the store. -/
theorem Native.contract (h : t.Native own) (hu : u.Native own) : (contract own t u).Native own := by
  have hsubstituted : (substitute own own 0 (u.shift own 1 0) t).Native own := by
    refine every_mapBound (fun d slot hs => ?_) h
    unfold substituteSlot
    split
    · exact (hu.shift.raise _).depth d
    · exact hs
  exact hsubstituted.shift

/-- A lambda's variable that is bound anew becomes one of the store. -/
theorem native_carried {slot : Slot} {depth : Nat} (hscope : slot.scope = scope) (hdepth : slot.index.val < depth) :
    (slot.carried own scope depth).Native own := by
  unfold Slot.carried
  rw [if_pos hscope]
  by_cases hlast : slot.index = Index.last
  · rw [if_neg fun h => h.2 hlast]
    exact Or.inr hlast
  · rw [if_pos ⟨hdepth, hlast⟩]
    exact Or.inl rfl

theorem every_fill {θ : Substitution} (hθ : ∀ x, (θ x).Native own) {depth : Nat}
    (h : t.Every (fun d slot => slot.scope = scope ∧ slot.index.val < d) depth) :
    (t.fill own scope θ depth).Every (fun _ slot => slot.Native own) depth := by
  induction t using Tree.induction generalizing depth with
  | var x => exact ((hθ x).raise depth).depth depth
  | const _ => trivial
  | fn f args ih =>
    simp only [fill, Every, fillAll_eq_map, everyAll_iff, List.mem_map]
    rintro _ ⟨t, ht, rfl⟩
    exact ih t ht (everyAll_iff.mp h t ht)
  | app f a ihf iha => exact ⟨ihf h.1, iha h.2⟩
  | lambda body ih => exact ih h
  | bound slot => exact native_carried h.1 h.2

/-- **A tree without free bound variables, filled in with trees of the store, is a tree of the store.** -/
theorem Closed.native_fill {θ : Substitution} (h : t.Closed scope) (hθ : ∀ x, (θ x).Native own) :
    (t.fill own scope θ 0).Native own := every_fill hθ h

end Tree

/-! ## Substitutions that are found on the way -/

namespace Assignment

variable {σ τ : Assignment} {q s : Tree Slot}

/-- Variables stand for trees of the store. -/
def Native (own : Nat) (σ : Assignment) : Prop := ∀ x t, σ x = some t → t.Native own

theorem Native.empty : Assignment.empty.Native own := fun x t h => by cases h

theorem Native.total (h : σ.Native own) (x : String) : (σ.total x).Native own := by
  unfold Assignment.total
  cases hx : σ x with
  | none => trivial
  | some t => exact h x t hx

/-- Variables come to stand for parts of what is matched. -/
theorem Native.match? (h : σ.Native own) (hm : q.match? s σ = some τ) (hs : s.Native own) : τ.Native own := by
  intro x t hx
  by_cases hq : x ∈ q.vars
  · obtain ⟨u, hu, hn⟩ := Tree.assigned_of_instance? (Tree.instance?_of_match? hm).2 hs x hq
    exact Option.some.inj (hx.symm.trans hu) ▸ hn
  · exact h x t (Tree.eq_of_match? hm hq ▸ hx)

/-- The assignment says of these variables, and of no others, what they stand for. -/
def Assigns (σ : Assignment) (known : List String) : Prop := ∀ x, σ x ≠ none ↔ x ∈ known

theorem Assigns.empty : Assignment.empty.Assigns [] := by simp [Assigns, Assignment.empty]

/-- A match assigns the variables of the pattern. -/
theorem Assigns.match? {known : List String} (h : σ.Assigns known) (hm : q.match? s σ = some τ) :
    τ.Assigns (known ++ q.vars) := by
  intro x
  rw [List.mem_append]
  by_cases hq : x ∈ q.vars
  · obtain ⟨u, hu, -⟩ := Tree.assigned_of_instance? (Tree.instance?_of_match? hm).2
      (Tree.every_true : s.Every _ 0) x hq
    simp [hu, hq]
  · rw [Tree.eq_of_match? hm hq, h x]
    simp [hq]

/-- What the variables stand for is what they stand for in a larger assignment, where it concerns them. -/
theorem Assigns.total_eq {known : List String} (h : σ.Assigns known) (hext : σ.Extends τ) :
    σ.total = τ.total.on known := by
  funext x
  unfold Assignment.total Substitution.on
  cases hx : σ x with
  | none => rw [if_neg fun hk => (h x).mpr hk hx, Option.getD_none]
  | some t =>
    rw [if_pos ((h x).mp (by rw [hx]; exact Option.some_ne_none t))]
    dsimp only
    rw [hext x t hx]

/-- A term of a rule is filled in with what its variables stand for. -/
theorem Native.instantiate_eq_fill (h : σ.Native own) (hne : scope ≠ own) (q : Tree Slot) :
    q.instantiate own scope σ = q.fill own scope σ.total 0 :=
  Tree.instantiate_eq_fill hne (fun x t hx => (h x t hx).mono fun _ _ hs => hs.spared hne) q

end Assignment

/-! ## Derivations -/

/-- The tree rewrites to the other and both are trees of the store, provided that the first is one and that the rules
are closed. -/
def Derives (rules : List Rule) (own : Nat) (t u : Tree Slot) : Prop :=
  (∀ rule ∈ rules, rule.Closed) → t.Native own → Steps .known rules own t u ∧ u.Native own

namespace Derives

theorem refl (t : Tree Slot) : Derives rules own t t := fun _ ht => ⟨.refl t, ht⟩

theorem trans (h : Derives rules own t u) (h' : Derives rules own u v) : Derives rules own t v := by
  intro hclosed ht
  obtain ⟨hsteps, hu⟩ := h hclosed ht
  obtain ⟨hsteps', hv⟩ := h' hclosed hu
  exact ⟨hsteps.trans hsteps', hv⟩

/-- What is derived for the children of a tree. -/
theorem of_shape {α : Type} {f g : α → Tree Slot} {s : Shape α}
    (h : ∀ a ∈ s.children, Derives rules own (f a) (g a)) :
    Derives rules own (.ofShape (s.map f)) (.ofShape (s.map g)) := by
  intro hclosed hnative
  obtain ⟨hchildren, hroot⟩ := Tree.native_ofShape_iff.mp hnative
  have hall : ∀ a ∈ s.children, Steps .known rules own (f a) (g a) ∧ (g a).Native own := fun a ha =>
    h a ha hclosed (hchildren _ (by rw [Shape.children_map]; exact List.mem_map_of_mem ha))
  refine ⟨.of_shape fun a ha => (hall a ha).1, Tree.native_ofShape_iff.mpr ⟨?_, fun index scope hs => ?_⟩⟩
  · rw [Shape.children_map]
    exact List.forall_mem_map.mpr fun a ha => (hall a ha).2
  · refine hroot index scope ?_
    cases s <;> simp_all [Shape.map]

theorem of_contraction (hr : Rule.contraction ∈ rules) (h : t.contraction? own = some u) :
    Derives rules own t u := by
  intro _ hnative
  unfold Tree.contraction? at h
  split at h
  · cases h
    exact ⟨.single (.contraction hr), Tree.Native.contract (Tree.every_depth.mp hnative.1) hnative.2⟩
  · cases h

end Derives

/-! ### Conditions -/

/-- The conditions hold in order: the instance of each left side is related to a tree that the right side matches,
which assigns more variables. -/
inductive Condition.Chain (R : Tree Slot → Tree Slot → Prop) (own : Nat) :
    List Condition → Assignment → Assignment → Prop
  | nil (σ : Assignment) : Chain R own [] σ σ
  | cons {c : Condition} {cs : List Condition} {σ ρ τ : Assignment} {v : Tree Slot}
      (reaches : R (c.lhs.tree.instantiate own c.lhs.scope σ) v) (found : c.rhs.tree.match? v σ = some ρ)
      (rest : Chain R own cs ρ τ) : Chain R own (c :: cs) σ τ

/-- What is the case when conditions have been checked: the right sides' variables are assigned as well, and each
condition holds by what was known when it was checked. -/
structure Condition.Checked (rules : List Rule) (own scope : Nat) (seen : List String) (cs : List Condition)
    (σ τ : Assignment) : Prop where
  extends_ : σ.Extends τ
  native : τ.Native own
  assigns : τ.Assigns (known seen cs)
  holds : ∀ p ∈ inOrder seen cs, Steps .known rules own (p.2.lhs.tree.fill own scope (τ.total.on p.1) 0)
    (p.2.rhs.tree.fill own scope τ.total 0)

theorem Condition.Chain.checked (hrules : ∀ rule ∈ rules, rule.Closed) (hne : scope ≠ own)
    {cs : List Condition} {σ τ : Assignment} (h : Chain (Derives rules own) own cs σ τ) : ∀ {seen : List String},
      σ.Native own → σ.Assigns seen → (∀ c ∈ cs, c.lhs.scope = scope ∧ c.lhs.tree.Closed scope) →
      Checked rules own scope seen cs σ τ := by
  induction h with
  | nil σ =>
    intro seen hσ hassigns _
    exact ⟨.refl σ, hσ, by rwa [known, List.flatMap_nil, List.append_nil], fun p hp => absurd hp List.not_mem_nil⟩
  | @cons c cs σ ρ τ v reaches found _ ih =>
    intro seen hσ hassigns hsides
    obtain ⟨hscope, hclosed⟩ := hsides c List.mem_cons_self
    -- the left side is closed, so the derivation starts from a tree of the store
    rw [hscope, hσ.instantiate_eq_fill hne] at reaches
    obtain ⟨hsteps, hv⟩ := reaches hrules (hclosed.native_fill hσ.total)
    obtain ⟨hext, hinstance⟩ := Tree.instance?_of_match? found
    have hrest := ih (hσ.match? found hv) (hassigns.match? found) fun d hd => hsides d (List.mem_cons_of_mem _ hd)
    have hext' := hext.trans hrest.extends_
    refine ⟨hext', hrest.native, by rw [known_cons]; exact hrest.assigns, fun p hp => ?_⟩
    rcases List.mem_cons.mp hp with rfl | hp
    · rw [hassigns.total_eq hext'] at hsteps
      rw [Tree.fill_of_instance? (Tree.instance?_of_extends hrest.extends_ hinstance)]
      exact hsteps
    · exact hrest.holds p hp

/-! ### Rules -/

/-- **What checking the conditions one after the other derives by a rule.** -/
theorem Derives.of_rule {rule : Rule} {sides : PatternRule} {conditions : List Condition} {σ τ : Assignment}
    (hr : rule ∈ rules) (hmade : rule.sides? = some (sides, conditions)) (hne : sides.pattern.scope ≠ own)
    (hc : ∀ c ∈ conditions, c.Of sides.pattern.scope) (hm : sides.pattern.tree.match? t .empty = some σ)
    (hchain : Condition.Chain (Derives rules own) own conditions σ τ) :
    Derives rules own t (sides.template.tree.instantiate own sides.template.scope τ) := by
  intro hrules ht
  rw [sides.scope_pattern] at hne hc
  have hterms : rule.terms = sides.pattern :: sides.template :: conditions.flatMap fun c => [c.lhs, c.rhs] := by
    rw [Rule.terms, hmade]
  have hclosed : ∀ q ∈ rule.terms, q.tree.Closed q.scope := hrules rule hr
  have htemplate : sides.template.tree.Closed sides.store.scope :=
    sides.scope_template ▸ hclosed sides.template (by simp [hterms])
  have hlhs : ∀ c ∈ conditions, c.lhs.scope = sides.store.scope ∧ c.lhs.tree.Closed sides.store.scope := by
    intro c hcm
    have hmem : c.lhs ∈ rule.terms := by
      rw [hterms]
      exact List.mem_cons_of_mem _ (List.mem_cons_of_mem _ (List.mem_flatMap.mpr ⟨c, hcm, List.mem_cons_self⟩))
    exact ⟨(hc c hcm).1, (hc c hcm).1 ▸ hclosed c.lhs hmem⟩
  have hassigns : σ.Assigns sides.pattern.tree.vars := Assignment.Assigns.empty.match? hm
  have hchecked := hchain.checked hrules hne (Assignment.Native.empty.match? hm ht) hassigns hlhs
  obtain ⟨-, hinstance⟩ := Tree.instance?_of_match? hm
  have hpattern : sides.pattern.tree.fill own sides.store.scope τ.total 0 = t :=
    Tree.fill_of_instance? (Tree.instance?_of_extends hchecked.extends_ hinstance)
  rw [sides.scope_template, hchecked.native.instantiate_eq_fill hne]
  refine ⟨.single ?_, htemplate.native_fill hchecked.native.total⟩
  have hstep : Step .known rules own _ _ := .rule hr hmade τ.total hchecked.holds
  rw [hpattern, Extent.limit, ← hchecked.assigns.total_eq (.refl τ)] at hstep
  exact hstep

end TermGraph
