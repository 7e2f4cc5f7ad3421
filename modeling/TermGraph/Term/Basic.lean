import TermGraph.Index

/-!
# Terms

A term is a node of a shared graph together with everything below it. Every node carries a stamp: the
store that owns it, its position there, and its free depth. Within a store a node's identity decides
its content, so the algorithms of this library compare terms by `Term.id` and never descend to find
out whether two terms are equal.

`Shape` is one level of a term with the children left open. A shape over terms is the order for a
new node; the same shape over node ids is the key under which the node is found again.
-/

namespace TermGraph

/-- What names a node: the scope of the store that owns it, and its position in that store.

A scope is a store's identity, and is taken for the store wherever terms are compared or looked up. It is a number
without bound here. In a program that draws scopes from a counter of 32 bits, which starts over after `2 ^ 32` of them,
this assumes that no more stores than that are made. -/
structure NodeId where
  scope : Nat
  position : Nat
deriving DecidableEq, Repr

/-- A constant. Constants are compared and shown, never computed with. -/
inductive Literal where
  | integer (value : Int)
  | text (value : String)
deriving DecidableEq, Repr

/-- What a node knows of itself besides its content. The free depth is one more than the largest
index that is free below the node, so depth zero means closed. -/
structure Stamp where
  id : NodeId
  freeDepth : Index
deriving DecidableEq, Repr

/-- A node and all that is below it. A bound variable names the scope whose binders it counts, which
need not be the scope that owns the node. -/
inductive Term where
  | var (stamp : Stamp) (name : String)
  | const (stamp : Stamp) (value : Literal)
  | fn (stamp : Stamp) (symbol : String) (args : List Term)
  | app (stamp : Stamp) (function argument : Term)
  | lambda (stamp : Stamp) (body : Term)
  | bound (stamp : Stamp) (index : Index) (scope : Nat)

/-- One level of a term, with children of type `α`. -/
inductive Shape (α : Type) where
  | var (name : String)
  | const (value : Literal)
  | fn (symbol : String) (args : List α)
  | app (function argument : α)
  | lambda (body : α)
  | bound (index : Index) (scope : Nat)
deriving DecidableEq, Repr

/-- The six variants of a node. -/
inductive Kind where
  | var
  | const
  | fn
  | app
  | lambda
  | bound
deriving DecidableEq, Repr

/-! ## Shapes -/

namespace Shape

variable {α β : Type}

/-- The children, in order. -/
def children : Shape α → List α
  | .fn _ args => args
  | .app function argument => [function, argument]
  | .lambda body => [body]
  | .var _ | .const _ | .bound _ _ => []

/-- The same level over other children. -/
def map (f : α → β) : Shape α → Shape β
  | .var name => .var name
  | .const value => .const value
  | .fn symbol args => .fn symbol (args.map f)
  | .app function argument => .app (f function) (f argument)
  | .lambda body => .lambda (f body)
  | .bound index scope => .bound index scope

@[simp] theorem children_map (f : α → β) (s : Shape α) : (s.map f).children = s.children.map f := by
  cases s <;> rfl

/-- The variant of the level. -/
def kind : Shape α → Kind
  | .var _ => .var
  | .const _ => .const
  | .fn _ _ => .fn
  | .app _ _ => .app
  | .lambda _ => .lambda
  | .bound _ _ => .bound

@[simp] theorem kind_map (f : α → β) (s : Shape α) : (s.map f).kind = s.kind := by
  cases s <;> rfl

end Shape

/-! ## Terms -/

namespace Term

/-- The stamp of the root. -/
def stamp : Term → Stamp
  | .var stamp _ | .const stamp _ | .fn stamp _ _ | .app stamp _ _ | .lambda stamp _
  | .bound stamp _ _ => stamp

/-- The identity of the root. Two terms are the same node when their ids are equal. -/
def id (t : Term) : NodeId := t.stamp.id

/-- The scope of the store that owns the term. -/
def scope (t : Term) : Nat := t.id.scope

theorem scope_congr {t u : Term} (h : t.id = u.id) : t.scope = u.scope := congrArg NodeId.scope h

/-- The position in the store that owns the term. -/
def position (t : Term) : Nat := t.id.position

/-- One more than the largest index free in the term, zero if there is none. -/
def freeDepth (t : Term) : Index := t.stamp.freeDepth

/-- No index is free in the term. -/
def isClosed (t : Term) : Bool := t.freeDepth == Index.zero

/-- The root with its children. -/
def shape : Term → Shape Term
  | .var _ name => .var name
  | .const _ value => .const value
  | .fn _ symbol args => .fn symbol args
  | .app _ function argument => .app function argument
  | .lambda _ body => .lambda body
  | .bound _ index scope => .bound index scope

/-- The term with the given root and stamp. -/
def ofShape (stamp : Stamp) : Shape Term → Term
  | .var name => .var stamp name
  | .const value => .const stamp value
  | .fn symbol args => .fn stamp symbol args
  | .app function argument => .app stamp function argument
  | .lambda body => .lambda stamp body
  | .bound index scope => .bound stamp index scope

@[simp] theorem shape_ofShape (stamp : Stamp) (s : Shape Term) : (ofShape stamp s).shape = s := by
  cases s <;> rfl

@[simp] theorem stamp_ofShape (stamp : Stamp) (s : Shape Term) :
    (ofShape stamp s).stamp = stamp := by
  cases s <;> rfl

@[simp] theorem ofShape_shape (t : Term) : ofShape t.stamp t.shape = t := by
  cases t <;> rfl

/-- The children, in order. -/
def children (t : Term) : List Term := t.shape.children

/-- The number of children. -/
def arity (t : Term) : Nat := t.children.length

/-- The child with the given number. -/
def arg? (t : Term) (i : Nat) : Option Term := t.children[i]?

/-- The variant of the root. -/
def kind (t : Term) : Kind := t.shape.kind

/-- The root is a named variable. -/
def isVar (t : Term) : Bool := t.kind == .var

/-- The root is a lambda. -/
def isLambda (t : Term) : Bool := t.kind == .lambda

/-- The function symbol of an application of a symbol, or the name of a variable. -/
def symbol? : Term → Option String
  | .var _ name => some name
  | .fn _ symbol _ => some symbol
  | _ => none

/-- The constant at the root. -/
def literal? : Term → Option Literal
  | .const _ value => some value
  | _ => none

/-- The root over the ids of its children: what a store looks the node up by. -/
def key (t : Term) : Shape NodeId := t.shape.map Term.id

@[simp] theorem id_ofShape (stamp : Stamp) (s : Shape Term) : (ofShape stamp s).id = stamp.id := by
  rw [id, stamp_ofShape]

@[simp] theorem children_ofShape (stamp : Stamp) (s : Shape Term) :
    (ofShape stamp s).children = s.children := by
  rw [children, shape_ofShape]

@[simp] theorem key_ofShape (stamp : Stamp) (s : Shape Term) :
    (ofShape stamp s).key = s.map Term.id := by
  rw [key, shape_ofShape]

theorem children_key (t : Term) : t.key.children = t.children.map Term.id :=
  Shape.children_map _ _

/-- The free depth of a node with this root: a bound variable reaches just beyond its index, a
lambda binds one index, and any other node reaches as deep as its children. -/
def depthOf : Shape Term → Index
  | .bound index _ => Index.above index
  | .lambda body => Index.below body.freeDepth
  | .fn _ args => args.foldl (fun depth arg => Index.deeper depth arg.freeDepth) Index.zero
  | .app function argument => Index.deeper function.freeDepth argument.freeDepth
  | .var _ | .const _ => Index.zero

/-- The position of the youngest child. A node with this root can only be above it. -/
def searchHint? (root : Shape Term) : Option Nat := (root.children.map position).max?

theorem lt_of_searchHint? {root : Shape Term} {n hint : Nat} (h : ∀ c ∈ root.children, c.position < n)
    (hhint : searchHint? root = some hint) : hint < n := by
  obtain ⟨c, hc, rfl⟩ := List.mem_map.mp (List.max?_mem hhint)
  exact h c hc

end Term

end TermGraph
