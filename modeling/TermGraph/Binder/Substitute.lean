import TermGraph.Binder.Shift

/-!
# Substitution

Substitution puts a term in the place of one free index of a scope. Below binders the index is seen one
higher for each of them, and so are the free indices of the term that replaces it: the replacement is
shifted along, one binder at a time and only as far as the index occurs.
-/

namespace TermGraph

/-- The replacement as it is seen at each index it has been asked for, by the value of the index. -/
abbrev Replacements := Std.ExtTreeMap Nat Term compare

namespace Build

/-- The replacement seen at index `i`, which is the one for the index above shifted by one. The
replacement for the index that the substitution began with is always there. -/
def replacementAt : Nat → StateT Replacements Build Term
  | 0 => do
    match (← get)[0]? with
    | some replacement => return replacement
    | none => throw .indexRange
  | i + 1 => do
    match (← get)[i + 1]? with
    | some replacement => return replacement
    | none =>
      let outside ← replacementAt i
      let store ← getThe Store
      let replacement ← shift outside store.scope 1 Index.zero
      modify (·.insert (i + 1) replacement)
      return replacement

/-- The place of a bound variable under substitution: of the indices of `scope`, the one that is seen
as the target. -/
def substituted (scope : Nat) : Placing Replacements := fun target index owner =>
  if owner = scope ∧ index = target then some (replacementAt target.val) else none

/-- Replaces the free index `target` of `scope`. Both terms must belong to the store. -/
def substitute (t : Term) (scope : Nat) (target : Index) (replacement : Term) : Build Term :=
  walk (substituted scope) target ((∅ : Replacements).insert target.val replacement) t

end Build

end TermGraph
