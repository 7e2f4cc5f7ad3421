import Mathlib.Data.List.Basic
import TermGraph.Proofs.Tree.Variables

/-!
# Finite trees and their unifiers

A term without binders is read as a finite tree whose variables are nodes, so that variables of one name in two stores
are two variables. What a substitution puts in their places may be trees over any leaves. Whatever is not to be looked
into can be such a leaf, a tree below a binder among others, so nothing is lost by leaving out binders here.

## Main statements

* `Expression.subst_subst` — two substitutions one after the other are one
* `Expression.subst_substN` — what makes no difference to a substitution when applied once before it, makes none when
  applied many times
* `Unifies` — what it is for a substitution to unify two terms
-/

namespace TermGraph

/-- A finite tree with variables `ν`. -/
inductive Expression (ν : Type) where
  | var (x : ν)
  | const (value : Literal)
  | fn (symbol : String) (args : List (Expression ν))
  | app (function argument : Expression ν)

namespace Expression

variable {ν μ κ : Type}

/-- What passes from the children of a tree to the tree holds of all trees. -/
theorem induction {motive : Expression ν → Prop} (var : ∀ x, motive (.var x)) (const : ∀ a, motive (.const a))
    (fn : ∀ f args, (∀ e ∈ args, motive e) → motive (.fn f args))
    (app : ∀ f a, motive f → motive a → motive (.app f a)) : ∀ e, motive e :=
  @Expression.rec ν motive (fun es => ∀ e ∈ es, motive e) var const fn app
    (fun _ h => absurd h List.not_mem_nil) fun e es he hes u hu => by
      rcases List.mem_cons.mp hu with rfl | hu
      · exact he
      · exact hes u hu

/-- A tree by its root and children. What is not looked into becomes the variable `x`. -/
def ofShape (x : ν) : Shape (Expression ν) → Expression ν
  | .const value => .const value
  | .fn symbol args => .fn symbol args
  | .app function argument => .app function argument
  | .var _ | .lambda _ | .bound _ _ => .var x

/-! ## Substitution -/

mutual

/-- The tree with every variable replaced. -/
def subst (τ : ν → Expression μ) : Expression ν → Expression μ
  | .var x => τ x
  | .const value => .const value
  | .fn symbol args => .fn symbol (substAll τ args)
  | .app function argument => .app (subst τ function) (subst τ argument)

/-- Each of the trees with every variable replaced. -/
def substAll (τ : ν → Expression μ) : List (Expression ν) → List (Expression μ)
  | [] => []
  | e :: es => subst τ e :: substAll τ es

end

theorem substAll_eq_map (τ : ν → Expression μ) (es : List (Expression ν)) : substAll τ es = es.map (subst τ) := by
  induction es with
  | nil => rfl
  | cons e es ih => rw [substAll, List.map_cons, ih]

mutual

/-- The variables, from left to right and as often as they occur. -/
def vars : Expression ν → List ν
  | .var x => [x]
  | .const _ => []
  | .fn _ args => varsAll args
  | .app function argument => vars function ++ vars argument

/-- The variables of each of the trees. -/
def varsAll : List (Expression ν) → List ν
  | [] => []
  | e :: es => vars e ++ varsAll es

end

theorem mem_varsAll {x : ν} {es : List (Expression ν)} : x ∈ varsAll es ↔ ∃ e ∈ es, x ∈ e.vars := by
  induction es with
  | nil => simp [varsAll]
  | cons e es ih => simp [varsAll, ih]

theorem mem_vars_ofShape {x y : ν} {shape : Shape (Expression ν)} (h : y ∈ (ofShape x shape).vars) :
    y = x ∨ ∃ e ∈ shape.children, y ∈ e.vars := by
  cases shape with
  | var | lambda | bound => exact Or.inl (List.mem_singleton.mp h)
  | const => cases h
  | fn _ args => exact Or.inr (mem_varsAll.mp h)
  | app function argument =>
    rcases List.mem_append.mp h with h | h
    · exact Or.inr ⟨function, List.mem_cons_self, h⟩
    · exact Or.inr ⟨argument, List.mem_cons_of_mem _ List.mem_cons_self, h⟩

/-- Two substitutions one after the other are one. -/
theorem subst_subst (σ : ν → Expression μ) (τ : μ → Expression κ) (e : Expression ν) :
    (e.subst σ).subst τ = e.subst fun x => (σ x).subst τ := by
  induction e using Expression.induction with
  | var x => rfl
  | const a => rfl
  | fn f args ih =>
    simp only [subst, substAll_eq_map, List.map_map, fn.injEq, true_and]
    exact List.map_congr_left ih
  | app f a ihf iha => rw [subst, subst, subst, ihf, iha]

/-- What replaces the variables matters only where the tree has any. -/
theorem subst_congr {σ τ : ν → Expression μ} {e : Expression ν} (h : ∀ x ∈ e.vars, σ x = τ x) :
    e.subst σ = e.subst τ := by
  induction e using Expression.induction with
  | var x => exact h x List.mem_cons_self
  | const a => rfl
  | fn f args ih =>
    simp only [subst, substAll_eq_map, fn.injEq, true_and]
    exact List.map_congr_left fun e he => ih e he fun x hx => h x (mem_varsAll.mpr ⟨e, he, hx⟩)
  | app f a ihf iha =>
    rw [subst, subst, ihf fun x hx => h x (List.mem_append_left _ hx), iha fun x hx => h x (List.mem_append_right _ hx)]

/-! ## The same substitution many times -/

/-- The tree after so many substitutions with `σ`. -/
def substN (σ : ν → Expression ν) : Nat → Expression ν → Expression ν
  | 0, e => e
  | n + 1, e => substN σ n (e.subst σ)

variable {σ : ν → Expression ν} {n : Nat}

theorem substN_const (σ : ν → Expression ν) (n : Nat) (value : Literal) : substN σ n (.const value) = .const value := by
  induction n with
  | zero => rfl
  | succ n ih => exact ih

theorem substN_fn (σ : ν → Expression ν) (n : Nat) (f : String) (args : List (Expression ν)) :
    substN σ n (.fn f args) = .fn f (args.map (substN σ n)) := by
  induction n generalizing args with
  | zero => rw [show substN σ 0 = fun e => e from rfl, List.map_id']
  | succ n ih =>
    rw [substN, subst, substAll_eq_map, ih, List.map_map]
    rfl

theorem substN_app (σ : ν → Expression ν) (n : Nat) (f a : Expression ν) :
    substN σ n (.app f a) = .app (substN σ n f) (substN σ n a) := by
  induction n generalizing f a with
  | zero => rfl
  | succ n ih => exact ih _ _

/-- Variables that stand for themselves stay. -/
theorem substN_var {x : ν} (h : σ x = .var x) (n : Nat) : substN σ n (.var x) = .var x := by
  induction n with
  | zero => rfl
  | succ n ih => rw [substN, subst, h, ih]

theorem substN_ofShape {x : ν} (h : σ x = .var x) (n : Nat) (shape : Shape (Expression ν)) :
    substN σ n (ofShape x shape) = ofShape x (shape.map (substN σ n)) := by
  cases shape with
  | var | lambda | bound => exact substN_var h n
  | const value => exact substN_const σ n value
  | fn symbol args => exact substN_fn σ n symbol args
  | app function argument => exact substN_app σ n function argument

/-- Substituting many times is one substitution too. -/
theorem substN_eq_subst (σ : ν → Expression ν) (n : Nat) (e : Expression ν) :
    substN σ n e = e.subst fun x => substN σ n (.var x) := by
  induction e using Expression.induction with
  | var x => rfl
  | const a => rw [substN_const, subst]
  | fn f args ih => rw [substN_fn, subst, substAll_eq_map, List.map_congr_left ih]
  | app f a ihf iha => rw [substN_app, subst, ihf, iha]

/-- If it makes no difference to `τ` whether `σ` is applied before it, nor does it to apply `σ` any number of times. -/
theorem subst_substN {τ : ν → Expression μ} (h : ∀ x, (σ x).subst τ = τ x) (n : Nat) (e : Expression ν) :
    (substN σ n e).subst τ = e.subst τ := by
  induction n generalizing e with
  | zero => rfl
  | succ n ih => rw [substN, ih, subst_subst, subst_congr fun x _ => h x]

/-! ## Size -/

mutual

/-- The number of nodes. -/
def size : Expression ν → Nat
  | .var _ | .const _ => 1
  | .fn _ args => sizeAll args + 1
  | .app function argument => size function + size argument + 1

/-- The number of nodes of all trees. -/
def sizeAll : List (Expression ν) → Nat
  | [] => 0
  | e :: es => size e + sizeAll es

end

theorem size_le_sizeAll {e : Expression ν} {es : List (Expression ν)} (he : e ∈ es) : e.size ≤ sizeAll es := by
  induction es with
  | nil => cases he
  | cons d es ih =>
    rw [sizeAll]
    rcases List.mem_cons.mp he with rfl | he
    · omega
    · have := ih he
      omega

end Expression

/-! ## Terms -/

namespace Term

mutual

/-- The tree of a term, with nodes as variables. Binders and bound variables are not looked into. -/
def expression : Term → Expression NodeId
  | .var stamp _ | .lambda stamp _ | .bound stamp _ _ => .var stamp.id
  | .const _ value => .const value
  | .fn _ symbol args => .fn symbol (expressions args)
  | .app _ function argument => .app (expression function) (expression argument)

/-- The trees of the terms. -/
def expressions : List Term → List (Expression NodeId)
  | [] => []
  | t :: ts => expression t :: expressions ts

end

theorem expressions_eq_map (ts : List Term) : expressions ts = ts.map expression := by
  induction ts with
  | nil => rfl
  | cons t ts ih => rw [expressions, List.map_cons, ih]

theorem expression_eq_ofShape (t : Term) : t.expression = .ofShape t.id (t.shape.map expression) := by
  cases t with
  | fn _ symbol args => rw [expression, expressions_eq_map]; rfl
  | _ => rfl

theorem expression_of_isVar {t : Term} (ht : t.isVar = true) : t.expression = .var t.id := by
  cases t with
  | var => rfl
  | _ => cases ht

theorem binderFree_child {t c : Term} (h : t.tree.binderFree = true) (hc : c ∈ t.children) :
    c.tree.binderFree = true := by
  cases t with
  | var | const => cases hc
  | lambda | bound => cases h
  | fn _ f args =>
    rw [tree, Tree.binderFree, Tree.binderFreeAll_iff, trees_eq_map] at h
    exact h c.tree (List.mem_map_of_mem hc)
  | app _ f a =>
    rw [tree, Tree.binderFree, Bool.and_eq_true] at h
    rcases List.mem_cons.mp hc with rfl | hc
    · exact h.1
    · exact List.mem_singleton.mp hc ▸ h.2

/-- A child becomes a smaller tree than the term. -/
theorem size_expression_lt {ν : Type} (τ : NodeId → Expression ν) {t c : Term} (ht : t.tree.binderFree = true)
    (hc : c ∈ t.children) : (c.expression.subst τ).size < (t.expression.subst τ).size := by
  cases t with
  | var => cases hc
  | const => cases hc
  | fn _ f args =>
    rw [expression, expressions_eq_map, Expression.subst, Expression.substAll_eq_map, Expression.size]
    exact Nat.lt_succ_of_le (Expression.size_le_sizeAll (List.mem_map_of_mem (List.mem_map_of_mem hc)))
  | app _ f a =>
    rw [expression, Expression.subst, Expression.size]
    rcases List.mem_cons.mp hc with rfl | hc
    · omega
    · rw [List.mem_singleton.mp hc]
      omega
  | lambda => cases ht
  | bound => cases ht

end Term

/-- The substitution makes the trees of the terms equal. -/
def Unifies {ν : Type} (τ : NodeId → Expression ν) (s t : Term) : Prop := s.expression.subst τ = t.expression.subst τ

end TermGraph
