import TermGraph.Binder.Substitute
import TermGraph.Insertion.Survey

/-!
# Copying a term into a store

A copy is made from the leaves upwards. A linked node is copied as what its link leads to; a node that
is closed and meets no link is kept if it is a node of the store already; everything else is rebuilt
from the copies of its children.

Rebuilding a lambda of another store binds its variable anew: the body moves below the new binder, and
the index that the old binder owned is replaced by the new binder's. No other step relates the indices
of two scopes.
-/

namespace TermGraph

/-- A copy under way: it remembers the copies it has made. -/
abbrev Copy := StateT (NodeMap Term) Build

namespace Copy

/-- A lambda of this store around a body whose variable counts the binders of `scope`. -/
def rebind (scope : Nat) (body : Term) : Build Term := do
  let own := (← get).scope
  let body ← Build.shift body own 1 Index.zero
  let binder ← Build.bound Index.zero own
  let body ← Build.substitute body scope Index.zero binder
  Build.lambda body

/-- The copy of one node: on record, or the copy of what the node is linked to, or the node itself, or
made from the copies of its children. -/
def node (links : Links) (known : NodeMap Reach) (t : Term) (follow : Term → Copy Term)
    (make : Copy Term) : Copy Term := do
  match (← get)[t.id]? with
  | some copy => return copy
  | none =>
    let copy ←
      match links.link? t with
      | some next => follow next
      | none => do
        let store ← getThe Store
        if store.contains t && known[t.id]? == some .closed then return t else make
    modify (·.insert t.id copy)
    return copy

mutual

/-- The copy of a term, with `follow` for what links lead to. -/
def term (links : Links) (known : NodeMap Reach) (follow : Term → Copy Term) : Term → Copy Term
  | t@(.var _ _) | t@(.const _ _) | t@(.bound _ _ _) =>
    node links known t follow (Build.rebuild t [])
  | t@(.fn _ _ args) => node links known t follow do
    Build.rebuild t (← terms links known follow args)
  | t@(.app _ function argument) => node links known t follow do
    let function ← term links known follow function
    let argument ← term links known follow argument
    Build.rebuild t [function, argument]
  | t@(.lambda _ body) => node links known t follow do
    let body ← term links known follow body
    let store ← getThe Store
    if store.contains t then Build.rebuild t [body] else rebind t.scope body

/-- The copies of the terms, made from left to right. -/
def terms (links : Links) (known : NodeMap Reach) (follow : Term → Copy Term) :
    List Term → Copy (List Term)
  | [] => return []
  | t :: ts => do
    let t ← term links known follow t
    let ts ← terms links known follow ts
    return t :: ts

end

/-- The copy of a term that follows at most so many links one after the other. -/
def within (links : Links) (known : NodeMap Reach) : Nat → Term → Copy Term
  | 0 => term links known fun _ => throw .outOfSteps
  | n + 1 => term links known (within links known n)

/-- The copy of a term that has been surveyed. -/
def run (links : Links) (known : NodeMap Reach) (t : Term) : Build Term :=
  (within links known links.size t).run' ∅

end Copy

end TermGraph
