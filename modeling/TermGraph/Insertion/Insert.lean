import TermGraph.Insertion.Copy
import TermGraph.Work

/-!
# Inserting a term into a store

Insertion surveys a term and then copies it. The survey decides alone whether insertion fails, so a
failed insertion leaves the store as it was.
-/

namespace TermGraph.Work

/-- The copy of the term with every linked node replaced by what the chain of its links ends in. -/
def insert (links : Links) (t : Term) : Work Term := do
  match Survey.run links t with
  | .error cycle =>
    record (.insertionFailed t cycle)
    throw (.cycle cycle)
  | .ok known =>
    let copy ← build (Copy.run links known t)
    record (.inserted t copy)
    return copy

/-- The term itself if the store owns it, otherwise its copy. -/
def adopt (t : Term) : Work Term := do
  if ← owns t then return t else insert .none t

end TermGraph.Work
