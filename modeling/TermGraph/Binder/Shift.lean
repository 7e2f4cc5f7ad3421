import TermGraph.Binder.Walk

/-!
# Shifting

Shifting adds a number to the free indices of one scope, so that a term can move below or out of
binders. Indices of other scopes stay what they are.
-/

namespace TermGraph.Build

/-- The place of a bound variable that is shifted: indices of `scope` below the cutoff stay. -/
def shifted (scope : Nat) (delta : Int) : Placing Unit := fun cutoff index owner =>
  if owner = scope ∧ cutoff.val ≤ index.val then some (bound (Index.move index delta) owner) else none

/-- Adds `delta` to every index of `scope` that is free in the term and at least `cutoff`. The term
must belong to the store. -/
def shift (t : Term) (scope : Nat) (delta : Int) (cutoff : Index) : Build Term :=
  if delta = 0 then return t else walk (shifted scope delta) cutoff () t

end TermGraph.Build
