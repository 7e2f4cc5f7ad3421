import TermGraph.Rewriting.Step

/-!
# Normalization

A term is settled from the inside outwards. First its children are reduced. If one of them has changed,
the term is rebuilt from what its children became; otherwise it is rewritten at the root, and if nothing
rewrites it, it is a normal form. A term that changed is linked to what it became, and the work goes on
there. Before anything is worked on its links are followed, so work that was done once, for this term or
for another that shares it, is not done again.

Rewriting may go on forever. Settling counts its steps, including those spent on children and on the
conditions of rules, and fails with `Fault.outOfSteps` when they are used up; with enough steps for a
term the number of steps has no influence on the result.
-/

namespace TermGraph.Reduction

/-- Reduces children in order, and tells whether one of them is linked afterwards. -/
def reduceChildren (reduce : Term → Reduction Term) (parent : Term) :
    List Term → Reduction Bool
  | [] => return false
  | child :: children => do
    let _ ← below parent (reduce child)
    let changed := ((← cache).link? child).isSome
    let others ← reduceChildren reduce parent children
    return changed || others

/-- What a term becomes in one step: itself over what its children became if one of them changed,
otherwise its reduct at the root. -/
def advance (rewriter : Rewriter) (reduce : Term → Reduction Term) (t : Term) :
    Reduction (Option Term) := do
  if ← reduceChildren reduce t t.children then
    return some (← work (Work.insert (← cache).asLinks t))
  else
    match ← evaluating t (rewriter.rewrite reduce t) with
    | none => return none
    | some reduct =>
      if reduct.id = t.id then throw (.cycle { origin := t }) else return some reduct

/-- Settles a term that has no links to follow, in at most so many nested steps. -/
def settle (rewriter : Rewriter) : Nat → Term → Reduction Term
  | 0, _ => throw .outOfSteps
  | n + 1, t => do
    if (← cache).isNormal t then
      return t
    match ← advance rewriter (fun u => do settle rewriter n (← resolve u)) t with
    | none =>
      record (.irreducible t)
      learn (·.addNormal t)
      return t
    | some next =>
      let next ← below t (resolve next)
      learn (·.setLink t next)
      settle rewriter n next

/-- The normal form of a term of the store. -/
def reduce (rewriter : Rewriter) (steps : Nat) (t : Term) : Reduction Term := do
  settle rewriter steps (← resolve t)

/-- The normal form of a term, which is inserted into the store first if it belongs to another. After a
cycle, whatever was left unfinished is forgotten. -/
def normalize (rewriter : Rewriter) (steps : Nat) (t : Term) : Reduction Term := do
  let t ← work (Work.adopt t)
  record (.normalizing t)
  match ← orCycle (reduce rewriter steps t) with
  | .ok normalForm =>
    record (.normalized t normalForm)
    return normalForm
  | .error cycle =>
    record (.normalizationFailed t cycle)
    learn Cache.discardUnfinished
    throw (.cycle cycle)

end TermGraph.Reduction

namespace TermGraph.Rewriter

/-- One step at the root of a term outside of any normalization. The term is inserted into the store
first if it belongs to another. -/
def apply (rewriter : Rewriter) (steps : Nat) (t : Term) : Work (Option Term) := do
  let t ← Work.adopt t
  Reduction.fresh (rewriter.rewrite (Reduction.reduce rewriter steps) t)

end TermGraph.Rewriter
