import TermGraph.Journal

/-!
# Work on a store that leaves a journal

A bench is a store together with the journal of what was done. `Work` is a computation at a bench; like
`Build` it keeps its state when it fails, so nodes and events that came before a fault remain.
-/

namespace TermGraph

/-- A store and the journal of the work on it. -/
structure Bench where
  store : Store
  journal : Journal := #[]

/-- A computation on a store that leaves a journal. The bench survives a fault. -/
abbrev Work := ExceptT Fault (StateM Bench)

namespace Work

/-- A computation on the store alone. -/
def build {α : Type} (b : Build α) : Work α := fun bench =>
  match b bench.store with
  | (result, store) => (result, { bench with store })

/-- Adds an event to the journal. -/
def record (event : Event) : Work Unit :=
  modify fun bench => { bench with journal := bench.journal.push event }

/-- The store belongs to the term. -/
def owns (t : Term) : Work Bool := return (← get).store.contains t

end Work

end TermGraph
