import Mathlib.Logic.Relation
import TermGraph.Proofs.Rewriting.Evaluate
import TermGraph.Proofs.Tree.Variables

/-!
# Conditional rewriting

The reference for what a normalizer may do at all. A step replaces, anywhere in a tree, an instance of a rule's
pattern by the same instance of its template, provided that for each condition the instance of the left side rewrites
to that of the right side. No strategy is prescribed: steps may be taken at any place, by any rule and with any
substitution.

Conditions are checked in order, and the right side of each binds variables for those that follow. So there are two
ways to take an instance of a left side: with the whole substitution, or with what it says of the variables that are
known by then. The two differ where a left side has a variable that its own right side or a later one is the first to
bind; rules without such variables are `Ordered`, and for them the second way allows no more than the first.

## Main statements

* `steps_iff_reflTransGen` — the two halves of the relation fit together
* `Steps.of_shape` — a level may be rewritten child by child
* `Steps.whole_of_known` — **for ordered rules, what is known suffices**
-/

namespace TermGraph

/-! ## Rules and their variables -/

/-- The rule's sides and conditions. The contraction rule has none. -/
def Rule.sides? : Rule → Option (PatternRule × List Condition)
  | .pattern rule => some (rule, [])
  | .conditional rule conditions _ => some (rule, conditions)
  | .contraction => none

/-- The variables that are known when the conditions have been checked. -/
def Condition.known (seen : List String) (conditions : List Condition) : List String :=
  seen ++ conditions.flatMap fun c => c.rhs.tree.vars

/-- Each condition with the variables that are known before it is checked. -/
def Condition.inOrder : (seen : List String) → List Condition → List (List String × Condition)
  | _, [] => []
  | seen, c :: cs => (seen, c) :: inOrder (seen ++ c.rhs.tree.vars) cs

/-- Every variable on the left side of a condition is known before, or no right side binds it. -/
def Rule.Ordered (rule : Rule) : Prop :=
  ∀ sides ∈ rule.sides?, ∀ p ∈ Condition.inOrder sides.1.pattern.tree.vars sides.2, ∀ x ∈ p.2.lhs.tree.vars,
    x ∈ p.1 ∨ x ∉ Condition.known sides.1.pattern.tree.vars sides.2

instance (rule : Rule) : Decidable rule.Ordered := inferInstanceAs (Decidable (∀ sides ∈ rule.sides?, _))

theorem Condition.known_cons (seen : List String) (c : Condition) (cs : List Condition) :
    known seen (c :: cs) = known (seen ++ c.rhs.tree.vars) cs := by
  rw [known, known, List.flatMap_cons, List.append_assoc]

/-- What is known before a condition remains known. -/
theorem Condition.subset_known {before : List String} {c : Condition} :
    ∀ {seen : List String} {cs : List Condition}, (before, c) ∈ inOrder seen cs →
      before ⊆ known seen cs ∧ c.rhs.tree.vars ⊆ known seen cs
  | seen, d :: cs, h => by
    rw [known_cons]
    rcases List.mem_cons.mp h with h | h
    · cases h
      exact ⟨fun x hx => List.mem_append_left _ (List.mem_append_left _ hx),
        fun x hx => List.mem_append_left _ (List.mem_append_right _ hx)⟩
    · exact subset_known h

/-! ## The relation -/

/-- The substitution where it concerns the variables. -/
def Substitution.on (known : List String) (θ : Substitution) : Substitution :=
  fun x => if x ∈ known then θ x else .var x

/-- How much of a substitution a rule's terms are filled in with. -/
inductive Extent where
  | whole
  | known

/-- The substitution as far as it is used when only the variables are known. -/
def Extent.limit (known : List String) (θ : Substitution) : Extent → Substitution
  | .whole => θ
  | .known => θ.on known

mutual

/-- One tree is the other with an instance of a pattern replaced, in the store `own` whose binders all lambdas are. -/
inductive Step (extent : Extent) (rules : List Rule) (own : Nat) : Tree Slot → Tree Slot → Prop
  | argument {symbol : String} {before after : List (Tree Slot)} {t u : Tree Slot}
      (step : Step extent rules own t u) :
      Step extent rules own (.fn symbol (before ++ t :: after)) (.fn symbol (before ++ u :: after))
  | appFunction {t u a : Tree Slot} (step : Step extent rules own t u) :
      Step extent rules own (.app t a) (.app u a)
  | appArgument {f t u : Tree Slot} (step : Step extent rules own t u) :
      Step extent rules own (.app f t) (.app f u)
  | body {t u : Tree Slot} (step : Step extent rules own t u) : Step extent rules own (.lambda t) (.lambda u)
  | contraction {body argument : Tree Slot} (mem : Rule.contraction ∈ rules) :
      Step extent rules own (.app (.lambda body) argument) (.contract own body argument)
  | rule {rule : Rule} {sides : PatternRule} {conditions : List Condition} (mem : rule ∈ rules)
      (made : rule.sides? = some (sides, conditions)) (θ : Substitution)
      (holds : ∀ p ∈ Condition.inOrder sides.pattern.tree.vars conditions,
        Steps extent rules own (p.2.lhs.tree.fill own sides.store.scope (extent.limit p.1 θ) 0)
          (p.2.rhs.tree.fill own sides.store.scope θ 0)) :
      Step extent rules own (sides.pattern.tree.fill own sides.store.scope θ 0)
        (sides.template.tree.fill own sides.store.scope
          (extent.limit (Condition.known sides.pattern.tree.vars conditions) θ) 0)

/-- Zero or more steps. -/
inductive Steps (extent : Extent) (rules : List Rule) (own : Nat) : Tree Slot → Tree Slot → Prop
  | refl (t : Tree Slot) : Steps extent rules own t t
  | head {t u v : Tree Slot} (step : Step extent rules own t u) (steps : Steps extent rules own u v) :
      Steps extent rules own t v

end

variable {extent : Extent} {rules : List Rule} {own scope : Nat} {t u v : Tree Slot}

theorem Steps.reflTransGen : ∀ {t u : Tree Slot}, Steps extent rules own t u →
    Relation.ReflTransGen (Step extent rules own) t u
  | _, _, .refl _ => .refl
  | _, _, .head step steps => .head step steps.reflTransGen

/-- The two halves of the relation fit together. -/
theorem steps_iff_reflTransGen :
    Steps extent rules own t u ↔ Relation.ReflTransGen (Step extent rules own) t u := by
  refine ⟨Steps.reflTransGen, fun h => ?_⟩
  induction h using Relation.ReflTransGen.head_induction_on with
  | refl => exact .refl u
  | head step _ ih => exact .head step ih

namespace Steps

theorem single (h : Step extent rules own t u) : Steps extent rules own t u := .head h (.refl u)

theorem trans (h : Steps extent rules own t u) (h' : Steps extent rules own u v) : Steps extent rules own t v :=
  steps_iff_reflTransGen.mpr (h.reflTransGen.trans h'.reflTransGen)

/-! ### Contexts -/

/-- Steps may be taken in any context that allows each of them. -/
theorem map (context : Tree Slot → Tree Slot)
    (hstep : ∀ t u, Step extent rules own t u → Step extent rules own (context t) (context u))
    (h : Steps extent rules own t u) : Steps extent rules own (context t) (context u) :=
  steps_iff_reflTransGen.mpr (h.reflTransGen.lift context hstep)

/-- The arguments of a symbol may be rewritten from left to right. -/
theorem arguments {α : Type} {f g : α → Tree Slot} (symbol : String) :
    ∀ {as : List α} (before : List (Tree Slot)), (∀ a ∈ as, Steps extent rules own (f a) (g a)) →
      Steps extent rules own (.fn symbol (before ++ as.map f)) (.fn symbol (before ++ as.map g))
  | [], before, _ => .refl _
  | a :: as, before, h => by
    have hfirst := (h a List.mem_cons_self).map (fun t => .fn symbol (before ++ t :: as.map f))
      fun _ _ => .argument
    have hrest := arguments (g := g) symbol (before ++ [g a]) fun b hb => h b (List.mem_cons_of_mem _ hb)
    rw [List.append_assoc, List.append_assoc, List.singleton_append, List.singleton_append] at hrest
    exact hfirst.trans hrest

/-- **A level may be rewritten child by child.** -/
theorem of_shape {α : Type} {f g : α → Tree Slot} {s : Shape α}
    (h : ∀ a ∈ s.children, Steps extent rules own (f a) (g a)) :
    Steps extent rules own (.ofShape (s.map f)) (.ofShape (s.map g)) := by
  cases s with
  | fn symbol args => exact arguments symbol [] h
  | app function argument =>
    have hf := h function List.mem_cons_self
    have ha := h argument (List.mem_cons_of_mem _ List.mem_cons_self)
    exact (hf.map (.app · _) fun _ _ => .appFunction).trans (ha.map (.app _) fun _ _ => .appArgument)
  | lambda body => exact (h body List.mem_cons_self).map .lambda fun _ _ => .body
  | _ => exact .refl _

end Steps

/-! ### Ordered rules -/

mutual

/-- For ordered rules, a step by what is known is a step by a whole substitution. -/
theorem Step.whole_of_known (hordered : ∀ rule ∈ rules, rule.Ordered) :
    ∀ {t u : Tree Slot}, Step .known rules own t u → Step .whole rules own t u
  | _, _, .argument step => .argument (Step.whole_of_known hordered step)
  | _, _, .appFunction step => .appFunction (Step.whole_of_known hordered step)
  | _, _, .appArgument step => .appArgument (Step.whole_of_known hordered step)
  | _, _, .body step => .body (Step.whole_of_known hordered step)
  | _, _, .contraction mem => .contraction mem
  | _, _, @Step.rule _ _ _ rule sides conditions mem made θ holds => by
    -- the substitution that leaves alone what nothing binds does for the whole rule
    let all := Condition.known sides.pattern.tree.vars conditions
    have hpattern : ∀ x ∈ sides.pattern.tree.vars, θ x = θ.on all x :=
      fun x hx => (if_pos (List.mem_append_left _ hx)).symm
    rw [Tree.fill_congr hpattern]
    refine .rule mem made (θ.on all) fun p hp => ?_
    obtain ⟨hbefore, hrhs⟩ := Condition.subset_known hp
    have hsteps := Steps.whole_of_known hordered (holds p hp)
    have hleft : ∀ x ∈ p.2.lhs.tree.vars, θ.on p.1 x = θ.on all x := by
      intro x hx
      by_cases hseen : x ∈ p.1
      · exact (if_pos hseen).trans (if_pos (hbefore hseen)).symm
      · have hfree := (hordered rule mem _ made p hp x hx).resolve_left hseen
        exact (if_neg hseen).trans (if_neg hfree).symm
    have hright : ∀ x ∈ p.2.rhs.tree.vars, θ x = θ.on all x := fun x hx => (if_pos (hrhs hx)).symm
    rw [Tree.fill_congr hright] at hsteps
    rw [Extent.limit, ← Tree.fill_congr hleft]
    exact hsteps

/-- **For ordered rules, what is known suffices.** -/
theorem Steps.whole_of_known (hordered : ∀ rule ∈ rules, rule.Ordered) :
    ∀ {t u : Tree Slot}, Steps .known rules own t u → Steps .whole rules own t u
  | _, _, .refl t => .refl t
  | _, _, .head step steps => .head (Step.whole_of_known hordered step) (Steps.whole_of_known hordered steps)

end

end TermGraph
