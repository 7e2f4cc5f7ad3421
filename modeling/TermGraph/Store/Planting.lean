import TermGraph.Tree
import TermGraph.Work

/-!
# Planting trees

A tree enters a store from its leaves upwards and from left to right. Every subtree is recorded in the
journal when its node is known, whether the node is new or was there before.
-/

namespace TermGraph.Work

/-- The node, once it is on record. -/
def announced (make : Build Term) : Work Term := do
  let t ← build make
  record (.interned t)
  return t

mutual

/-- The node that stands for the tree. Bound variables count the binders of this store. -/
def plant : Tree Index → Work Term
  | .var name => announced (Build.var name)
  | .const value => announced (Build.const value)
  | .fn symbol args => do
    let args ← plantAll args
    announced (Build.fn symbol args)
  | .app function argument => do
    let function ← plant function
    let argument ← plant argument
    announced (Build.app function argument)
  | .lambda body => do
    let body ← plant body
    announced (Build.lambda body)
  | .bound index => announced do
    let store ← get
    Build.bound index store.scope

/-- The nodes that stand for the trees, from left to right. -/
def plantAll : List (Tree Index) → Work (List Term)
  | [] => return []
  | t :: ts => do
    let t ← plant t
    let ts ← plantAll ts
    return t :: ts

end

end TermGraph.Work
