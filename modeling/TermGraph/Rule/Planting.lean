import TermGraph.Store.Planting

/-!
# Rules from trees

A rule made from trees gets a store of its own, into which its pattern, its template and then the sides of
its conditions are planted.
-/

namespace TermGraph.Rule

/-- The rule with the given sides; with conditions, even if there are none of them, it is a
conditional rule. -/
def of (store : Store) (pattern template : Term) (conditions : Option (List Condition)) :
    Except Breach Rule := do
  let rule ← PatternRule.of store pattern template
  match conditions with
  | none => return .pattern rule
  | some conditions => under rule conditions

/-- The conditions with the given sides, planted in order. -/
def plantConditions : List (Tree Index × Tree Index) → Work (List Condition)
  | [] => return []
  | (lhs, rhs) :: conditions => do
    let lhs ← Work.plant lhs
    let rhs ← Work.plant rhs
    let conditions ← plantConditions conditions
    return ⟨lhs, rhs⟩ :: conditions

/-- The rule that the trees stand for, planted in the store of the bench. -/
def plant (pattern template : Tree Index)
    (conditions : Option (List (Tree Index × Tree Index))) : Work Rule := do
  let pattern ← Work.plant pattern
  let template ← Work.plant template
  let conditions ←
    match conditions with
    | none => pure none
    | some sides => pure (some (← plantConditions sides))
  match of (← get).store pattern template conditions with
  | .ok rule => return rule
  | .error breach => throw (.breach breach)

end TermGraph.Rule
