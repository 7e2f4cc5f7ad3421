import TermGraph.Binder.Substitute

/-!
# Contraction

A lambda next to its argument contracts to the body with the bound variable replaced. The argument moves
below the binder before it is put in place, and the result moves out of it.
-/

namespace TermGraph.Build

/-- The contraction of the lambda around `body`, a lambda of this store, with `argument`. -/
def contract (body argument : Term) : Build Term := do
  let scope := (← get).scope
  let lifted ← shift argument scope 1 Index.zero
  let filled ← substitute body scope Index.zero lifted
  shift filled scope (-1) Index.zero

end TermGraph.Build
