import TermGraph.Fault
import TermGraph.Term.Order

/-!
# Stores

A store is a growing list of nodes with an index by shape. `intern` is the only way in: it gives back
the node that has the shape already, or appends one. Nodes are therefore shared as far as possible, and
a node's children, which must be there first, have smaller positions than the node.

Computations on a store may fail, and what they had put into the store until then stays there: `Build`
keeps the store on both ways out.
-/

namespace TermGraph

/-- The nodes of one scope in order of creation, and the node of each shape. The scope is assumed to identify the store:
no two stores are made with the same one (see `NodeId`). -/
structure Store where
  scope : Nat
  nodes : Array Term := #[]
  index : ShapeMap Term := ∅

/-- A computation on a store. The store survives a fault. -/
abbrev Build := ExceptT Fault (StateM Store)

namespace Store

/-- The store without nodes. -/
def empty (scope : Nat) : Store := { scope }

/-- The number of nodes. -/
def size (store : Store) : Nat := store.nodes.size

/-- The store has no nodes. -/
def isEmpty (store : Store) : Bool := store.nodes.isEmpty

/-- The store owns the node. -/
def contains (store : Store) (t : Term) : Bool := t.scope == store.scope

/-- The nodes in order, in the given form. -/
def render (form : Form) (store : Store) : String :=
  String.intercalate " :: " (store.nodes.toList.map (Term.render form))

/-- The node with the given shape that comes next. -/
def fresh (store : Store) (shape : Shape Term) : Term :=
  .ofShape ⟨⟨store.scope, store.nodes.size⟩, Term.depthOf shape⟩ shape

/-- The store with one more node, which has the given key. -/
def push (store : Store) (key : Shape NodeId) (t : Term) : Store :=
  { store with nodes := store.nodes.push t, index := store.index.insert key t }

/-- The node of the given shape, and the store that has it. -/
def intern (store : Store) (shape : Shape Term) : Except Fault Term × Store :=
  if shape.children.all store.contains then
    let key := shape.map Term.id
    match store.index[key]? with
    | some t =>
      if (Term.searchHint? shape).all (· < t.position) then (.ok t, store)
      else (.error (.breach .misplacedNode), store)
    | none =>
      let t := store.fresh shape
      (.ok t, store.push key t)
  else (.error (.breach .foreignChild), store)

/-! ### What interning does -/

@[simp] theorem size_empty (scope : Nat) : (empty scope).size = 0 := rfl

@[simp] theorem scope_push (store : Store) (key : Shape NodeId) (t : Term) :
    (store.push key t).scope = store.scope := rfl

@[simp] theorem size_push (store : Store) (key : Shape NodeId) (t : Term) :
    (store.push key t).size = store.size + 1 := Array.size_push t

@[simp] theorem contains_push (store : Store) (key : Shape NodeId) (t u : Term) :
    (store.push key t).contains u = store.contains u := rfl

/-- A shape over children of another store is refused, and the store stays as it is. -/
theorem intern_of_foreign {store : Store} {shape : Shape Term}
    (h : shape.children.all store.contains = false) :
    store.intern shape = (.error (.breach .foreignChild), store) := by
  simp [intern, h]

/-- A shape that is there already has its node, which comes after its children, and the store stays as it is. -/
theorem intern_of_known {store : Store} {shape : Shape Term} {t : Term}
    (hc : shape.children.all store.contains = true)
    (ht : store.index[shape.map Term.id]? = some t) (hp : ∀ c ∈ shape.children, c.position < t.position) :
    store.intern shape = (.ok t, store) := by
  have hhint : (Term.searchHint? shape).all (· < t.position) = true :=
    (Option.all_eq_true _ _).mpr fun hint hhint => decide_eq_true (Term.lt_of_searchHint? hp hhint)
  simp [intern, hc, ht, hhint]

/-- A shape that is new gets the next node. -/
theorem intern_of_new {store : Store} {shape : Shape Term}
    (hc : shape.children.all store.contains = true)
    (ht : store.index[shape.map Term.id]? = none) :
    store.intern shape =
      (.ok (store.fresh shape), store.push (shape.map Term.id) (store.fresh shape)) := by
  simp [intern, hc, ht]

end Store

/-! ## Making nodes -/

namespace Build

/-- The node of the given shape. Its children must belong to the store. -/
def intern (shape : Shape Term) : Build Term := fun store => store.intern shape

/-- The variable of the given name. -/
def var (name : String) : Build Term := intern (.var name)

/-- The given constant. -/
def const (value : Literal) : Build Term := intern (.const value)

/-- The given symbol over the arguments. -/
def fn (symbol : String) (args : List Term) : Build Term := intern (.fn symbol args)

/-- A function term next to its argument. -/
def app (function argument : Term) : Build Term := intern (.app function argument)

/-- A binder around the body. -/
def lambda (body : Term) : Build Term := intern (.lambda body)

/-- The bound variable with the given index, counted in the binders of a scope. -/
def bound (index : Index) (scope : Nat) : Build Term := intern (.bound index scope)

/-- The node of the template's variant over other children. Leaves stay what they are, so a bound
variable keeps its scope; children that the variant has no place for are left out. -/
def rebuild (template : Term) (children : List Term) : Build Term := do
  if children.isEmpty && (← get).contains template then
    return template
  match template, children with
  | .fn _ symbol _, _ => fn symbol children
  | .app .., function :: argument :: _ => app function argument
  | .app .., _ => throw (.breach .applicationArity)
  | .lambda .., body :: _ => lambda body
  | .lambda .., [] => throw (.breach .lambdaArity)
  | .var _ name, _ => var name
  | .const _ value, _ => const value
  | .bound _ index scope, _ => bound index scope

/-- The term with child `i` replaced, if it has such a child. -/
def replace (t : Term) (i : Nat) (child : Term) : Build (Option Term) := do
  if i < t.arity then
    return some (← rebuild t (t.children.set i child))
  else
    return none

end Build

end TermGraph
