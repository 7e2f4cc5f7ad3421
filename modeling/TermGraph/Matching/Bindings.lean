import TermGraph.Links
import TermGraph.Term.Display

/-!
# Bindings

Matching and unification bind nodes to nodes. Bindings are kept in a table beside the terms, and a trail
holds the bound nodes in the order in which they were bound. Taking back an attempt that failed means
going back along the trail.

Not only variables are bound. Every node of the pattern that matched is bound to its counterpart, so
that a later insertion takes the counterpart over as a whole.
-/

namespace TermGraph

/-- The nodes that are bound and what they are bound to. The trail has the newest node first. -/
structure Bindings where
  trail : List Term := []
  table : NodeMap Term := ∅

namespace Bindings

/-- No bindings. -/
def empty : Bindings := {}

/-- Nothing has been bound. -/
def isEmpty (b : Bindings) : Bool := b.trail.isEmpty

/-- What the node is bound to. -/
def binding? (b : Bindings) (t : Term) : Option Term := b.table[t.id]?

/-- Binds a node. -/
def bind (b : Bindings) (t value : Term) : Bindings where
  trail := t :: b.trail
  table := b.table.insert t.id value

theorem binding?_bind (b : Bindings) (t value u : Term) :
    (b.bind t value).binding? u = if t.id = u.id then some value else b.binding? u :=
  NodeMap.getElem?_insert _ _ _ _

/-- Takes back the newest binding. -/
def undo (b : Bindings) : Bindings :=
  match b.trail with
  | [] => b
  | t :: trail => { trail, table := b.table.erase t.id }

/-- Takes back the `n` newest bindings. -/
def undoN (b : Bindings) : Nat → Bindings
  | 0 => b
  | n + 1 => b.undo.undoN n

/-- Takes back bindings until `mark` of them are left. -/
def undoTo (b : Bindings) (mark : Nat) : Bindings := b.undoN (b.trail.length - mark)

/-- Binding a node and taking it back changes nothing if the node was not bound. -/
theorem undo_bind (b : Bindings) (t value : Term) (h : b.binding? t = none) :
    (b.bind t value).undo = b := by
  simp only [bind, undo]
  congr 1
  apply Std.ExtTreeMap.ext_getElem?
  intro k
  rw [NodeMap.getElem?_erase, NodeMap.getElem?_insert]
  split
  · next hk =>
    subst hk
    exact h.symm
  · rfl

/-- The bindings as a source of links. -/
def links (b : Bindings) : Links := .table b.table ∅

/-! ## Solutions -/

/-- The bound variables with what they are bound to, by name and then by node. A variable is on the
trail once at most, since it is not bound again while it is bound. -/
def solutions (b : Bindings) : List (Term × Term) :=
  let bound := b.trail.filterMap fun t =>
    if t.isVar then (b.binding? t).map fun value => (t, value) else none
  bound.mergeSort fun s t =>
    (compareLex (compareOn fun p : Term × Term => p.1.symbol?.getD "")
      (compareOn fun p : Term × Term => p.1.id) s t).isLE

/-- Solutions as equations between a variable and its value. -/
def solutionsText (solutions : List (Term × Term)) : String :=
  String.intercalate ", " <| solutions.map fun (name, value) =>
    name.render .matcher ++ " = " ++ value.text

/-- Every binding in the order in which they were made. -/
def text (b : Bindings) : String :=
  "S=\x7b" ++ String.intercalate ", " (b.trail.reverse.filterMap fun t =>
    (b.binding? t).map fun value => t.text ++ "→" ++ value.text) ++ "\x7d"

end Bindings

/-! ## Attempts -/

/-- An attempt to bind nodes that may succeed or not. -/
abbrev Attempt := StateM Bindings Bool

namespace Attempt

/-- The attempt, taken back if it does not succeed. -/
def orUndo (attempt : Attempt) : Attempt := do
  let mark := (← get).trail.length
  let success ← attempt
  unless success do
    modify (·.undoTo mark)
  return success

/-- Binds the node if the attempt succeeds. -/
def thenBind (attempt : Attempt) (t value : Term) : Attempt := do
  let success ← attempt
  if success then
    modify (·.bind t value)
  return success

end Attempt

end TermGraph
