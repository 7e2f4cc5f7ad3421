import TermGraph.Binder.Contract
import TermGraph.Matching.Match
import TermGraph.Normalizer.Session

/-!
# Rewriting at the root

A pattern rule matches its pattern against the term and inserts its template along the bindings. When
it is applied as part of a normalization, the template also follows the links of the normalizer. A
conditional rule checks its conditions in order between the two: each left side is inserted along the
bindings so far and reduced, and the right side is matched against the result, which may bind more
variables. How a term is reduced is left to the caller, since reducing a condition may rewrite with the
same rules again.

A system tries its rules in order, and the first that gives a reduct decides. A rule that runs into a
cycle does not apply, unless every rule does; then the last cycle is the result.
-/

namespace TermGraph

namespace Work

/-- Matches a pattern against a subject on top of the given bindings, and records the outcome. -/
def tryMatch (b : Bindings) (pattern subject : Term) : Work (Bool × Bindings) := do
  let (success, b) := b.tryMatch pattern subject
  record (.matched pattern subject success)
  return (success, b)

/-- The contraction of the term, if it is a lambda next to its argument. -/
def contract (t : Term) : Work (Option Term) := do
  match ← adopt t with
  | .app _ (.lambda _ body) argument => return some (← build (Build.contract body argument))
  | _ => return none

end Work

/-! ## Rules on their own -/

/-- The rule's reduct of the term, if the pattern matches. -/
def PatternRule.apply (rule : PatternRule) (t : Term) : Work (Option Term) := do
  let (success, b) ← Work.tryMatch .empty rule.pattern t
  if success then return some (← Work.insert b.links rule.template) else return none

/-- The rule's reduct of the term, whatever the rule's conditions. -/
def Rule.apply : Rule → Term → Work (Option Term)
  | .pattern rule, t => rule.apply t
  | .conditional rule _ _, t => rule.apply t
  | .contraction, t => Work.contract t

/-! ## Rules within a normalization -/

namespace Reduction

/-- Checks conditions in order on top of the bindings; `none` if one does not hold for the term. -/
def checkConditions (reduce : Term → Reduction Term) (t : Term) :
    List Condition → Bindings → Reduction (Option Bindings)
  | [], b => return some b
  | condition :: conditions, b => do
    let links := Links.both b.links (← cache).asLinks
    let lhs ← work (Work.insert links condition.lhs)
    let normalForm ← reduce lhs
    let (success, b) ← work (Work.tryMatch b condition.rhs normalForm)
    if success then
      checkConditions reduce t conditions b
    else
      record (.conditionFailed condition t normalForm)
      return none

/-- The reduct of the term by a pattern rule under conditions. -/
def rewriteIf (reduce : Term → Reduction Term) (rule : PatternRule) (conditions : List Condition)
    (t : Term) : Reduction (Option Term) := do
  let (success, b) ← work (Work.tryMatch .empty rule.pattern t)
  if success then
    match ← checkConditions reduce t conditions b with
    | some b =>
      let links := Links.both b.links (← cache).asLinks
      return some (← work (Work.insert links rule.template))
    | none => return none
  else
    return none

end Reduction

/-- The rule's reduct of the term, with `reduce` for the conditions. -/
def Rule.rewrite (reduce : Term → Reduction Term) : Rule → Term → Reduction (Option Term)
  | .pattern rule, t => Reduction.rewriteIf reduce rule [] t
  | .conditional rule conditions _, t => Reduction.rewriteIf reduce rule conditions t
  | .contraction, t => Reduction.work (Work.contract t)

namespace Reduction

/-- The reduct of the term by the first of the rules that gives one. Before them, `last` is the cycle
that the latest rule ran into, and `onlyCycles` tells whether all rules ran into one. -/
def rewriteFirst (reduce : Term → Reduction Term) (t : Term) :
    List Rule → (last : Option Cycle) → (onlyCycles : Bool) → Reduction (Option Term)
  | [], some cycle, true => throw (.cycle cycle)
  | [], _, _ => return none
  | rule :: rules, last, onlyCycles => do
    match ← orCycle (rule.rewrite reduce t) with
    | .ok (some reduct) =>
      record (.rewritten t reduct rule)
      return some reduct
    | .ok none => rewriteFirst reduce t rules last false
    | .error cycle =>
      record (.raised rule cycle t)
      rewriteFirst reduce t rules (some cycle) onlyCycles

end Reduction

/-- The reduct of the term, with `reduce` for the conditions of rules. -/
def Rewriter.rewrite (reduce : Term → Reduction Term) : Rewriter → Term → Reduction (Option Term)
  | .rule r, t => r.rewrite reduce t
  | .system rules, t => Reduction.rewriteFirst reduce t rules none true

/-! ## Repeated rewriting -/

namespace Reduction

/-- Rewrites a term at the root until no step applies, in at most so many steps. -/
def rewriteOn (rewrite : Term → Reduction (Option Term)) : Nat → Term → Reduction Term
  | 0, _ => throw .outOfSteps
  | n + 1, t => do
    match ← rewrite t with
    | none => return t
    | some reduct =>
      if reduct.id = t.id then throw (.cycle { origin := t })
      rewriteOn rewrite n reduct

/-- What a term becomes by rewriting at the root for as long as a step applies, or `none` if no step
applies to begin with. -/
def rewriteAll (rewrite : Term → Reduction (Option Term)) (steps : Nat) (t : Term) :
    Reduction (Option Term) := do
  match ← rewrite t with
  | none => return none
  | some reduct => return some (← rewriteOn rewrite steps reduct)

end Reduction

end TermGraph
