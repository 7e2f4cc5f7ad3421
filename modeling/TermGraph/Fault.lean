import TermGraph.Term.Display

/-!
# What can go wrong

A **cycle** is the one failure that input can cause: following links or rewriting came back to a term
it had not finished with. It carries the terms it went through, from the innermost outwards.

A **breach** is a promise that was not kept, such as that children come from the store. The other two
faults are limits: an index that has no room for another binder, and a search that used up the
steps it was given.
-/

namespace TermGraph

/-- A chain of terms that came back to where it began. The origin is the term at which it closed; the
others follow from the inside outwards. -/
structure Cycle where
  origin : Term
  outer : List Term := []

namespace Cycle

/-- All terms of the chain, the origin first. -/
def chain (c : Cycle) : List Term := c.origin :: c.outer

/-- The chain with one more term on the outside. -/
def append (c : Cycle) (t : Term) : Cycle := { c with outer := c.outer ++ [t] }

@[simp] theorem origin_append (c : Cycle) (t : Term) : (c.append t).origin = c.origin := rfl

@[simp] theorem chain_append (c : Cycle) (t : Term) : (c.append t).chain = c.chain ++ [t] := rfl

/-- The chain as a message. -/
def message (c : Cycle) : String :=
  "Cycle: [" ++ String.intercalate ", " (c.chain.map Term.text) ++ "]"

end Cycle

/-- A promise that was not kept. All but one are the caller's; that a node comes after its children is the
store's own. -/
inductive Breach where
  | foreignChild
  | misplacedNode
  | applicationArity
  | lambdaArity
  | ruleSides
  | conditionSides
deriving DecidableEq, Repr

/-- The promise, as a message. -/
def Breach.message : Breach → String
  | .foreignChild => "children of a term must belong to the store it is created in"
  | .misplacedNode => "assertion failed: kind.search_hint().map_or(true, |hint| existing.position() > hint)"
  | .applicationArity => "an application has exactly two children"
  | .lambdaArity => "a lambda has exactly one child"
  | .ruleSides => "both sides of a rule must belong to the rule's store"
  | .conditionSides => "conditions must belong to the rule's store"

/-- Why a computation failed. -/
inductive Fault where
  | cycle (cycle : Cycle)
  | breach (breach : Breach)
  | indexRange
  | outOfSteps

end TermGraph
