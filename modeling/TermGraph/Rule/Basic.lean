import TermGraph.Store.Basic

/-!
# Rules

A pattern rule replaces an instance of its pattern by the same instance of its template. It owns a
store for both sides, which applying the rule never changes. A conditional rule asks in addition that
the normal form of each condition's left side match the condition's right side. The contraction rule
needs no pattern.

A rewriter is what a normalizer works with: a single rule, or an ordered system of rules.
-/

namespace TermGraph

/-- A pattern and a template of one store. -/
structure PatternRule where
  store : Store
  pattern : Term
  template : Term
  owned : (store.contains pattern && store.contains template) = true

/-- The normal form of `lhs` must match `rhs`. -/
structure Condition where
  lhs : Term
  rhs : Term

/-- A way to replace a term. -/
inductive Rule where
  | pattern (rule : PatternRule)
  | conditional (rule : PatternRule) (conditions : List Condition)
      (owned : (conditions.all fun c => rule.store.contains c.lhs && rule.store.contains c.rhs) = true)
  | contraction

/-- What a normalizer rewrites with. -/
inductive Rewriter where
  | rule (rule : Rule)
  | system (rules : List Rule)

/-- The rules of the rewriter, in order. -/
def Rewriter.rules : Rewriter → List Rule
  | .rule r => [r]
  | .system rs => rs

/-! ## Making rules -/

/-- The rule with the given sides, which must belong to the store. -/
def PatternRule.of (store : Store) (pattern template : Term) : Except Breach PatternRule :=
  if h : (store.contains pattern && store.contains template) = true then
    .ok ⟨store, pattern, template, h⟩
  else .error .ruleSides

/-- The rule under the given conditions, whose sides must belong to the rule's store. -/
def Rule.under (rule : PatternRule) (conditions : List Condition) : Except Breach Rule :=
  if h : (conditions.all fun c => rule.store.contains c.lhs && rule.store.contains c.rhs) = true then
    .ok (.conditional rule conditions h)
  else .error .conditionSides

/-- The pattern of the rule, if it has one. -/
def Rule.pattern? : Rule → Option Term
  | .pattern rule => some rule.pattern
  | .conditional rule _ _ => some rule.pattern
  | .contraction => none

/-! ## Written rules -/

/-- Both sides with an arrow between them. -/
def Condition.text (c : Condition) : String := c.lhs.text ++ " -> " ++ c.rhs.text

/-- Both sides with an arrow between them. -/
def PatternRule.text (rule : PatternRule) : String := rule.pattern.text ++ " -> " ++ rule.template.text

/-- The rule, followed by its conditions if it has any. -/
def Rule.text : Rule → String
  | .pattern rule => rule.text
  | .conditional rule [] _ => rule.text
  | .conditional rule conditions _ =>
    rule.text ++ " <= " ++ String.intercalate ", " (conditions.map Condition.text)
  | .contraction => "beta"

/-- The rules of a system, each on a line of its own. -/
def Rule.listing (rules : List Rule) : String := String.join (rules.map fun rule => rule.text ++ "\n")

end TermGraph
