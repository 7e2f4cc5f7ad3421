import TermGraph.Term.Basic

/-!
# Trees

A tree is a term outside of any store: nothing is shared and nodes have no identity. What names a bound
variable is left open. Trees with a bare index come from outside and enter a store; trees with a `Slot`
keep the scope as well and are what a term unfolds to.
-/

namespace TermGraph

/-- A term as a tree, with bound variables named by `ν`. -/
inductive Tree (ν : Type) where
  | var (name : String)
  | const (value : Literal)
  | fn (symbol : String) (args : List (Tree ν))
  | app (function argument : Tree ν)
  | lambda (body : Tree ν)
  | bound (slot : ν)

/-- A bound variable of an unfolded term: an index and the scope whose binders it counts. -/
structure Slot where
  index : Index
  scope : Nat
deriving DecidableEq, Repr

namespace Tree

variable {ν : Type}

/-! ## Equality -/

mutual

/-- Equality of trees, node by node. -/
def decEq [DecidableEq ν] : (s t : Tree ν) → Decidable (s = t)
  | .var a, .var b => decidable_of_iff (a = b) (by simp)
  | .const a, .const b => decidable_of_iff (a = b) (by simp)
  | .fn f args, .fn g args' =>
    match decEqAll args args' with
    | isTrue h => decidable_of_iff (f = g) (by simp [h])
    | isFalse h => isFalse (by simp [h])
  | .app a b, .app c d =>
    match decEq a c, decEq b d with
    | isTrue h, isTrue h' => isTrue (by rw [h, h'])
    | isFalse h, _ => isFalse (by simp [h])
    | _, isFalse h => isFalse (by simp [h])
  | .lambda a, .lambda b =>
    match decEq a b with
    | isTrue h => isTrue (by rw [h])
    | isFalse h => isFalse (by simp [h])
  | .bound a, .bound b => decidable_of_iff (a = b) (by simp)
  | .var _, .const _ | .var _, .fn _ _ | .var _, .app _ _ | .var _, .lambda _ | .var _, .bound _
  | .const _, .var _ | .const _, .fn _ _ | .const _, .app _ _ | .const _, .lambda _
  | .const _, .bound _
  | .fn _ _, .var _ | .fn _ _, .const _ | .fn _ _, .app _ _ | .fn _ _, .lambda _
  | .fn _ _, .bound _
  | .app _ _, .var _ | .app _ _, .const _ | .app _ _, .fn _ _ | .app _ _, .lambda _
  | .app _ _, .bound _
  | .lambda _, .var _ | .lambda _, .const _ | .lambda _, .fn _ _ | .lambda _, .app _ _
  | .lambda _, .bound _
  | .bound _, .var _ | .bound _, .const _ | .bound _, .fn _ _ | .bound _, .app _ _
  | .bound _, .lambda _ => isFalse (by simp)

/-- Equality of lists of trees. -/
def decEqAll [DecidableEq ν] : (ss ts : List (Tree ν)) → Decidable (ss = ts)
  | [], [] => isTrue rfl
  | [], _ :: _ | _ :: _, [] => isFalse (by simp)
  | s :: ss, t :: ts =>
    match decEq s t, decEqAll ss ts with
    | isTrue h, isTrue h' => isTrue (by rw [h, h'])
    | isFalse h, _ => isFalse (by simp [h])
    | _, isFalse h => isFalse (by simp [h])

end

instance [DecidableEq ν] : DecidableEq (Tree ν) := decEq

end Tree

/-! ## Unfolding -/

namespace Term

mutual

/-- The tree that a term stands for. -/
def tree : Term → Tree Slot
  | .var _ name => .var name
  | .const _ value => .const value
  | .fn _ symbol args => .fn symbol (trees args)
  | .app _ function argument => .app (tree function) (tree argument)
  | .lambda _ body => .lambda (tree body)
  | .bound _ index scope => .bound ⟨index, scope⟩

/-- The trees that the terms stand for. -/
def trees : List Term → List (Tree Slot)
  | [] => []
  | t :: ts => tree t :: trees ts

end

theorem trees_eq_map (ts : List Term) : trees ts = ts.map tree := by
  induction ts with
  | nil => rfl
  | cons t ts ih => rw [trees, List.map_cons, ih]

end Term

end TermGraph
