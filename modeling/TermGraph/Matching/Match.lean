import TermGraph.Matching.Bindings

/-!
# Matching

Matching binds nodes of a pattern so that the pattern becomes the subject. The same node matches itself
without a binding. A node that is bound already matches only what it is bound to, which makes a repeated
variable stand for the same subject everywhere. Otherwise a variable matches anything, constants match
equal constants, symbols and applications match child by child, and lambdas and bound variables match
nothing but themselves.
-/

namespace TermGraph.Bindings

/-- A node of the pattern against a subject, with `inside` for the comparison of what they hold. -/
def matchNode (pattern subject : Term) (inside : Attempt) : Attempt := do
  if pattern.id = subject.id then
    return true
  match (← get).binding? pattern with
  | some value => return value.id = subject.id
  | none => inside.thenBind pattern subject

mutual

/-- Matches a pattern against a subject. -/
def matchTerm : Term → Term → Attempt
  | p@(.var _ _), s => matchNode p s (return true)
  | p@(.const _ a), s => matchNode p s <|
    match s with
    | .const _ b => return a = b
    | _ => return false
  | p@(.fn _ f ps), s => matchNode p s <|
    match s with
    | .fn _ g ss =>
      if f = g ∧ ps.length = ss.length then Attempt.orUndo (matchAll ps ss) else return false
    | _ => return false
  | p@(.app _ f a), s => matchNode p s <|
    match s with
    | .app _ g b => Attempt.orUndo do
      if ← matchTerm f g then matchTerm a b else return false
    | _ => return false
  | p@(.lambda _ _), s => matchNode p s (return false)
  | p@(.bound _ _ _), s => matchNode p s (return false)

/-- Matches patterns against subjects pairwise, from left to right, until one does not match. -/
def matchAll : List Term → List Term → Attempt
  | p :: ps, s :: ss => do
    if ← matchTerm p s then matchAll ps ss else return false
  | _, _ => return true

end

/-- Matches a pattern against a subject on top of the bindings there are. Without success the bindings
are what they were. -/
def tryMatch (b : Bindings) (pattern subject : Term) : Bool × Bindings :=
  (Attempt.orUndo (matchTerm pattern subject)).run b

end TermGraph.Bindings
