import TermGraph.Matching.Bindings

/-!
# Unification

Unification binds nodes of either side so that both sides become the same. Bindings made before are
followed first, so a bound node stands for what it is bound to. Nothing keeps a variable from being bound
to a term that contains it: such bindings form a cycle, and inserting a term along them fails.

Along a cycle of bindings the comparison of two terms may go on forever. The functions here count the
steps they may descend and have no answer when they run out.
-/

namespace TermGraph.Bindings

/-- An attempt that may run out of steps. -/
abbrev Search := StateT Bindings Option Bool

/-- The search, taken back if it does not succeed. -/
def Search.orUndo (search : Search) : Search := do
  let mark := (← get).trail.length
  let success ← search
  unless success do
    modify (·.undoTo mark)
  return success

/-- Binds the node if the search succeeds. -/
def Search.thenBind (search : Search) (t value : Term) : Search := do
  let success ← search
  if success then
    modify (·.bind t value)
  return success

/-- Unifies pairs from left to right until a pair does not unify. -/
def unifyPairs (unify : Term → Term → Search) : List (Term × Term) → Search
  | [] => return true
  | (s, t) :: pairs => do
    if ← unify s t then unifyPairs unify pairs else return false

/-- The children of two nodes pairwise, if the nodes are alike: a variable is like anything, constants
must be equal, symbols must agree in name and number of arguments. -/
def alike? : Term → Term → Option (List (Term × Term))
  | .var _ _, _ => some []
  | .const _ a, .const _ b => if a = b then some [] else none
  | .fn _ f ss, .fn _ g ts => if f = g ∧ ss.length = ts.length then some (ss.zip ts) else none
  | .app _ f a, .app _ g b => some [(f, g), (a, b)]
  | _, _ => none

/-- Unifies two terms in at most so many nested steps. -/
def unifyTerms : Nat → Term → Term → Search
  | 0, _, _ => fun _ => none
  | n + 1, s, t => do
    if s.id = t.id then
      return true
    match (← get).binding? s, (← get).binding? t with
    | some s, _ => unifyTerms n s t
    | none, some t => unifyTerms n s t
    | none, none =>
      if s.isVar || !t.isVar then
        match alike? s t with
        | some pairs => Search.thenBind (Search.orUndo (unifyPairs (unifyTerms n) pairs)) s t
        | none => return false
      else
        Search.thenBind (return true) t s

/-- Unifies two terms on top of the bindings there are, in at most so many nested steps. Without success
the bindings are what they were. -/
def unify (steps : Nat) (b : Bindings) (s t : Term) : Option (Bool × Bindings) :=
  (Search.orUndo (unifyTerms steps s t)).run b

/-! ## Chains of bindings -/

/-- The end of the chain of bindings from a term, after at most so many of them. -/
def follow (b : Bindings) : Nat → Term → Term
  | 0, t => t
  | n + 1, t =>
    match b.binding? t with
    | some next => b.follow n next
    | none => t

/-- The end of the chain of bindings from a term. A chain that does not come back to itself is no longer
than there are bindings. -/
def resolve (b : Bindings) (t : Term) : Term := b.follow b.table.size t

end TermGraph.Bindings
