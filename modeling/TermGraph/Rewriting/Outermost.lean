import TermGraph.Rewriting.Step

/-!
# One parallel step

A parallel outermost step rewrites once, and at the same time, every subterm that rewrites and lies below
no other subterm that does. A node met again has its result on record, so a shared subterm is rewritten
once.
-/

namespace TermGraph

/-- A parallel step under way: it remembers the results it has found. -/
abbrev Outermost := StateT (NodeMap (Option Term)) Reduction

namespace Outermost

/-- The result at a node: on record, or the reduct at the root, or the node over the results of its
children if one of them changed. -/
def node (rewrite : Term → Reduction (Option Term)) (t : Term)
    (steps : Outermost (List (Option Term))) : Outermost (Option Term) := do
  match (← get)[t.id]? with
  | some result => return result
  | none =>
    let result ←
      match ← (rewrite t : Reduction _) with
      | some reduct => pure (some reduct)
      | none => do
        let steps ← steps
        if steps.any Option.isSome then
          let children := List.zipWith (fun child step => step.getD child) t.children steps
          let rebuilt ← (Reduction.work (Work.build (Build.rebuild t children)) : Reduction _)
          pure (some rebuilt)
        else
          pure none
    modify (·.insert t.id result)
    return result

mutual

/-- The parallel step of a term, or `none` if none of its subterms rewrites. -/
def term (rewrite : Term → Reduction (Option Term)) : Term → Outermost (Option Term)
  | t@(.var _ _) | t@(.const _ _) | t@(.bound _ _ _) => node rewrite t (return [])
  | t@(.fn _ _ args) => node rewrite t (terms rewrite args)
  | t@(.app _ function argument) => node rewrite t do
    let function ← term rewrite function
    let argument ← term rewrite argument
    return [function, argument]
  | t@(.lambda _ body) => node rewrite t do
    let body ← term rewrite body
    return [body]

/-- The parallel steps of the terms, from left to right. -/
def terms (rewrite : Term → Reduction (Option Term)) : List Term → Outermost (List (Option Term))
  | [] => return []
  | t :: ts => do
    let step ← term rewrite t
    let steps ← terms rewrite ts
    return step :: steps

end

end Outermost

/-- The parallel step of a term, which is inserted into the store first if it belongs to another. -/
def Reduction.rewriteSubterms (rewrite : Term → Reduction (Option Term)) (t : Term) :
    Reduction (Option Term) := do
  let t ← Reduction.work (Work.adopt t)
  (Outermost.term rewrite t).run' ∅

end TermGraph
