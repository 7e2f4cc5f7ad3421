import TermGraph.Term.Order

/-!
# Links

A link says which term a node is to be replaced by; a pending node is one that may not be reached at
all for now. Links are kept beside the terms and never in them: they come from the bindings of a match,
from the rewrites a normalizer has made, or from several such sources laid over each other.
-/

namespace TermGraph

/-- A source of links. In `both` a link of the first source hides one of the second. -/
inductive Links where
  | none
  | table (links : NodeMap Term) (pending : NodeSet)
  | both (first second : Links)

namespace Links

/-- The term that the node is to be replaced by, if any. -/
def link? : Links → Term → Option Term
  | .none, _ => Option.none
  | .table links _, t => links[t.id]?
  | .both first second, t => (first.link? t).or (second.link? t)

/-- The node may not be reached. -/
def isPending : Links → Term → Bool
  | .none, _ => false
  | .table _ pending, t => pending.contains t.id
  | .both first second, t => first.isPending t || second.isPending t

@[simp] theorem link?_none (t : Term) : Links.none.link? t = Option.none := rfl

@[simp] theorem link?_table (links : NodeMap Term) (pending : NodeSet) (t : Term) :
    (table links pending).link? t = links[t.id]? := rfl

@[simp] theorem link?_both (first second : Links) (t : Term) :
    (both first second).link? t = (first.link? t).or (second.link? t) := rfl

/-- At least as many as there are linked nodes. A walk that goes through no node twice follows no more
links than this. -/
def size : Links → Nat
  | .none => 0
  | .table links _ => links.size
  | .both first second => first.size + second.size

/-- The links of the pairs; of two pairs for one node the later counts. -/
def ofPairs (pairs : List (Term × Term)) : Links :=
  .table (pairs.foldl (fun links pair => links.insert pair.1.id pair.2) ∅) ∅

theorem link?_ofPair (u next t : Term) :
    (ofPairs [(u, next)]).link? t = if u.id = t.id then some next else Option.none :=
  (NodeMap.getElem?_insert ∅ u.id t.id next).trans (by simp)

/-- A single link leads to one term only. -/
theorem eq_of_link?_ofPair {u next t v : Term} (h : (ofPairs [(u, next)]).link? t = some v) : v = next := by
  rw [link?_ofPair] at h
  split at h
  · exact (Option.some.inj h).symm
  · cases h

/-- No links, and the terms pending. -/
def ofPending (terms : List Term) : Links :=
  .table ∅ (terms.foldl (fun pending t => pending.insert t.id) ∅)

end Links

end TermGraph
