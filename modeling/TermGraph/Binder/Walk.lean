import TermGraph.Store.Basic

/-!
# Walks below binders

Shifting and substitution walk through a term and put something in the place of some of its bound
variables. On the way down they count the binders they pass; on the way up they rebuild the nodes in the
store.

The walk takes two shortcuts. A node whose free depth does not exceed the binders above it has no index
to change and is left alone, and a node met again below the same number of binders has its result on
record. The first also bounds the walk's index: below a free depth that exceeds it there is room for
one more binder.
-/

namespace TermGraph

/-- What a walk of a term has found for the nodes it has been through, on top of what the placing of
bound variables keeps for itself. -/
abbrev Walking (ρ : Type) := StateT (SightMap Term) (StateT ρ Build)

/-- What takes the place of a bound variable, given the binders above it, its index and its scope;
`none` if the variable stays. -/
abbrev Placing (ρ : Type) := Index → Index → Nat → Option (StateT ρ Build Term)

namespace Build

variable {ρ : Type}

/-- The result at a node below `depth` binders: the node itself if no free index reaches that far, the
recorded result if there is one, and otherwise the one that `make` gives, which goes on record. -/
def remembered (t : Term) (depth : Index) (make : Walking ρ Term) : Walking ρ Term := do
  if t.freeDepth.val ≤ depth.val then
    return t
  match (← get)[(t.id, depth)]? with
  | some result => return result
  | none =>
    let result ← make
    modify (·.insert (t.id, depth) result)
    return result

/-- The depth below one more binder. -/
def inner (depth : Index) : Build Index :=
  match Index.next? depth with
  | some next => return next
  | none => throw .indexRange

mutual

/-- The walk at a node below `depth` binders. -/
def walkAt (place : Placing ρ) (depth : Index) : Term → Walking ρ Term
  | t@(.lambda _ body) => remembered t depth do
    let body ← walkAt place (← inner depth) body
    lambda body
  | t@(.bound _ index owner) => remembered t depth <|
    match place depth index owner with
    | some make => make
    | none => rebuild t []
  | t@(.fn _ _ args) => remembered t depth do
    rebuild t (← walkAllAt place depth args)
  | t@(.app _ function argument) => remembered t depth do
    let function ← walkAt place depth function
    let argument ← walkAt place depth argument
    rebuild t [function, argument]
  | t@(.var _ _) | t@(.const _ _) => remembered t depth (rebuild t [])

/-- The walk through each of the terms, from left to right. -/
def walkAllAt (place : Placing ρ) (depth : Index) : List Term → Walking ρ (List Term)
  | [] => return []
  | t :: ts => do
    let t ← walkAt place depth t
    let ts ← walkAllAt place depth ts
    return t :: ts

end

/-- The walk from below `depth` binders, starting with nothing on record. -/
def walk (place : Placing ρ) (depth : Index) (start : ρ) (t : Term) : Build Term :=
  ((walkAt place depth t).run' ∅).run' start

end Build

end TermGraph
