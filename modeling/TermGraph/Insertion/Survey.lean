import TermGraph.Fault
import TermGraph.Links

/-!
# Surveying a term before it is copied

Before a term is copied along links, a survey walks through everything the copy will go through: the
link of a linked node, and the children of any other. The survey fails with a cycle if the walk comes to
a pending node, or to one that it is still below. For every other node it notes whether a link lies at
or below it, and how deep its free indices reach once the links are followed.

The walk along children is structural. The walk along links is bounded by the number of links, since a
walk that is never below the same node twice follows no more links than there are linked nodes.
-/

namespace TermGraph

/-- What a survey finds out about a node. -/
structure Reach where
  linkFree : Bool
  freeDepth : Index
deriving DecidableEq, Repr

namespace Reach

/-- Nothing to follow and nothing free. -/
def closed : Reach := ⟨true, Index.zero⟩

/-- The reach of two things side by side. -/
def join (a b : Reach) : Reach := ⟨a.linkFree && b.linkFree, Index.deeper a.freeDepth b.freeDepth⟩

/-- The reach around a binder. -/
def under (body : Reach) : Reach := ⟨body.linkFree, Index.below body.freeDepth⟩

/-- The reach of a node that is linked to something with the given reach. -/
def linked (next : Reach) : Reach := ⟨false, next.freeDepth⟩

end Reach

/-- A survey: it remembers the nodes it is done with, and fails with a cycle. -/
abbrev Survey := StateT (NodeMap Reach) (Except Cycle)

namespace Survey

/-- A cycle that comes up is extended by the term. -/
def below (t : Term) (survey : Survey Reach) : Survey Reach := fun known =>
  (survey known).mapError fun cycle => cycle.append t

/-- The survey of one node at the end of `path`: on record, or closing a cycle, or found by following
its link, or found by descending to its children. -/
def node (links : Links) (path : List NodeId) (t : Term) (follow : Term → Survey Reach)
    (descend : Survey Reach) : Survey Reach := do
  match (← get)[t.id]? with
  | some reach => return reach
  | none =>
    if path.contains t.id || links.isPending t then
      throw { origin := t }
    let reach ← below t <|
      match links.link? t with
      | some next => do return (← follow next).linked
      | none => descend
    modify (·.insert t.id reach)
    return reach

mutual

/-- The survey of a term below the nodes of `path`, with `follow` for what links lead to. -/
def term (links : Links) (follow : List NodeId → Term → Survey Reach) (path : List NodeId) :
    Term → Survey Reach
  | t@(.var _ _) | t@(.const _ _) =>
    node links path t (follow (t.id :: path)) (return .closed)
  | t@(.bound _ _ _) =>
    node links path t (follow (t.id :: path)) (return ⟨true, t.freeDepth⟩)
  | t@(.fn _ _ args) =>
    node links path t (follow (t.id :: path)) (terms links follow (t.id :: path) args)
  | t@(.app _ function argument) =>
    node links path t (follow (t.id :: path)) do
      let function ← term links follow (t.id :: path) function
      let argument ← term links follow (t.id :: path) argument
      return function.join argument
  | t@(.lambda _ body) =>
    node links path t (follow (t.id :: path)) do
      let body ← term links follow (t.id :: path) body
      return body.under

/-- The survey of each of the terms, from left to right, and their joint reach. -/
def terms (links : Links) (follow : List NodeId → Term → Survey Reach) (path : List NodeId) :
    List Term → Survey Reach
  | [] => return .closed
  | t :: ts => do
    let first ← term links follow path t
    let rest ← terms links follow path ts
    return first.join rest

end

/-- The survey of a term that follows at most so many links one after the other. -/
def within (links : Links) : Nat → List NodeId → Term → Survey Reach
  | 0 => term links fun _ t => throw { origin := t }
  | n + 1 => term links (within links n)

/-- The reach of everything that copying the term along the links goes through. -/
def run (links : Links) (t : Term) : Except Cycle (NodeMap Reach) := do
  let (_, known) ← within links links.size [] t ∅
  return known

end Survey

end TermGraph
