import TermGraph.Term.Basic

/-!
# Written terms

A term is written in one of three forms. In the input form binders are named `a`, `b`, … by nesting
depth and a bound variable shows the name of its binder. In the de Bruijn form binders show their
nesting depth and bound variables show their index. The matcher form is the input form with named
variables set in angle marks.

An index is looked up among the binders of the written term only if it counts the binders of the store
that owns the variable; otherwise, or if it reaches beyond the term, it is written `%i`. The de Bruijn
form adds the scope to an index of another store.
-/

namespace TermGraph

/-- How terms are written. -/
inductive Form where
  | input
  | deBruijn
  | matcher
deriving DecidableEq, Repr

namespace Form

/-- The name of a form. -/
def name : Form → String
  | .input => "InputForm"
  | .deBruijn => "DeBruijnForm"
  | .matcher => "MatcherForm"

/-- The form with the given name. Case counts. -/
def ofName? (name : String) : Option Form :=
  [Form.input, .deBruijn, .matcher].find? (fun form => form.name == name)

/-- The answer to a name that belongs to no form. -/
def unknownName : String := "Matching variant not found"

theorem ofName?_name (form : Form) : ofName? form.name = some form := by
  cases form <;> decide

end Form

/-! ## Leaves -/

/-- Integers in decimal, texts between double quotes with nothing escaped. -/
def Literal.render : Literal → String
  | .integer value => toString value
  | .text value => "\"" ++ value ++ "\""

/-- The name of the binder below `depth` others: a letter, followed by the round once the alphabet
is used up. -/
def binderName (depth : Nat) : String :=
  let letter := String.singleton (Char.ofNat (97 + depth % 26))
  if depth / 26 = 0 then letter else letter ++ toString (depth / 26)

/-- A named variable in the given form. -/
def Form.variable (form : Form) (name : String) : String :=
  match form with
  | .matcher => "‹" ++ name ++ "›"
  | .input | .deBruijn => name

/-- The binder below `depth` others in the given form. -/
def Form.binder (form : Form) (depth : Nat) : String :=
  match form with
  | .deBruijn => toString depth
  | .input | .matcher => binderName depth

/-- A bound variable below `depth` binders in the given form; `home` is the scope that owns it and
`scope` the one whose binders it counts. -/
def Form.index (form : Form) (depth : Nat) (index : Index) (home scope : Nat) : String :=
  match form with
  | .deBruijn =>
    if scope = home then "%" ++ toString index.val
    else "%" ++ toString index.val ++ ":" ++ toString scope
  | .input | .matcher =>
    if scope = home ∧ index.val < depth then binderName (depth - 1 - index.val)
    else "%" ++ toString index.val

/-- Text in parentheses if they are needed. -/
def parenthesized (needed : Bool) (text : String) : String :=
  if needed then "(" ++ text ++ ")" else text

/-! ## Terms -/

namespace Term

/-- A lambda to the left of an argument is written in parentheses. -/
def needsParensLeft (t : Term) : Bool := t.kind == .lambda

/-- An application or a lambda as an argument is written in parentheses. -/
def needsParensRight (t : Term) : Bool := t.kind == .app || t.kind == .lambda

mutual

/-- The term below `depth` binders. -/
def renderAt (form : Form) (depth : Nat) : Term → String
  | .var _ name => form.variable name
  | .const _ value => value.render
  | .fn _ symbol args => symbol ++ "(" ++ String.intercalate ", " (renderAllAt form depth args) ++ ")"
  | .app _ function argument =>
    parenthesized function.needsParensLeft (renderAt form depth function) ++ " " ++
      parenthesized argument.needsParensRight (renderAt form depth argument)
  | .lambda _ body => "\\" ++ form.binder depth ++ "." ++ renderAt form (depth + 1) body
  | .bound stamp index scope => form.index depth index stamp.id.scope scope

/-- Each of the terms below `depth` binders. -/
def renderAllAt (form : Form) (depth : Nat) : List Term → List String
  | [] => []
  | t :: ts => renderAt form depth t :: renderAllAt form depth ts

end

theorem renderAllAt_eq_map (form : Form) (depth : Nat) (ts : List Term) :
    renderAllAt form depth ts = ts.map (renderAt form depth) := by
  induction ts with
  | nil => rfl
  | cons t ts ih => rw [renderAllAt, List.map_cons, ih]

/-- The term in the given form. -/
def render (form : Form) (t : Term) : String := renderAt form 0 t

/-- The term in the input form. -/
def text (t : Term) : String := t.render .input

end Term

end TermGraph
