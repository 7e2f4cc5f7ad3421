import TermGraph.Term.Order

/-!
# The distinct subterms of a term

`Term.dag` lists every node below a term once, children before parents, in the order in which a walk
from left to right completes them. The walk keeps a stack of what it has still to do. A node met a second
time is passed over with all that is below it, so the walk costs as much as the graph and not as much as
the tree. `Term.postorder` is the walk over the tree.
-/

namespace TermGraph

namespace Term

mutual

/-- Every subterm as often as it occurs, children before parents. -/
def postorder : Term → List Term
  | t@(.fn _ _ args) => postorderAll args ++ [t]
  | t@(.app _ function argument) => postorder function ++ postorder argument ++ [t]
  | t@(.lambda _ body) => postorder body ++ [t]
  | t@(.var _ _) | t@(.const _ _) | t@(.bound _ _ _) => [t]

/-- The subterms of each of the terms. -/
def postorderAll : List Term → List Term
  | [] => []
  | t :: ts => postorder t ++ postorderAll ts

end

theorem postorderAll_eq_flatMap (ts : List Term) : postorderAll ts = ts.flatMap postorder := by
  induction ts with
  | nil => rfl
  | cons t ts ih => rw [postorderAll, List.flatMap_cons, ih]

theorem postorder_eq (t : Term) : t.postorder = t.children.flatMap postorder ++ [t] := by
  cases t <;> simp [postorder, postorderAll_eq_flatMap, children, shape, Shape.children]

end Term

/-- What is left to do at a node: to go through what is below it, or to list it when that is done. -/
inductive Errand where
  | enter (t : Term)
  | complete (t : Term)

/-- The steps that are left at a node and below it as long as nothing is passed over. -/
def Errand.weight : Errand → Nat
  | enter t => 2 * t.postorder.length
  | complete _ => 1

/-- The steps that are left for all of the errands. -/
def Errand.weights : List Errand → Nat
  | [] => 0
  | errand :: errands => errand.weight + weights errands

theorem Errand.weights_append (errands rest : List Errand) :
    weights (errands ++ rest) = weights errands + weights rest := by
  induction errands with
  | nil => simp [weights]
  | cons errand errands ih => rw [List.cons_append, weights, ih, weights, Nat.add_assoc]

theorem Errand.weights_filter (p : Term → Bool) (ts : List Term) :
    weights ((ts.filter p).map enter) ≤ 2 * (ts.flatMap Term.postorder).length := by
  induction ts with
  | nil => simp [weights]
  | cons t ts ih =>
    rw [List.filter_cons, List.flatMap_cons, List.length_append]
    split
    · rw [List.map_cons, weights, weight]
      omega
    · omega

/-- A walk under way: the errands ahead with the next one first, the ids of the nodes that have been
entered, and the nodes that have been completed. -/
structure Walk where
  agenda : List Errand
  seen : NodeSet := ∅
  order : Array Term := #[]

namespace Walk

/-- The next errand is done. A node that has not been entered before leaves its children ahead of
itself, apart from those that have been entered. -/
def step? (w : Walk) : Option Walk :=
  match w.agenda with
  | [] => none
  | .complete t :: rest => some { w with agenda := rest, order := w.order.push t }
  | .enter t :: rest =>
    if w.seen.contains t.id then
      some { w with agenda := rest }
    else
      let seen := w.seen.insert t.id
      let ahead := t.children.filter fun c => !seen.contains c.id
      some { w with agenda := ahead.map .enter ++ .complete t :: rest, seen := seen }

theorem weights_step? {w w' : Walk} (h : w.step? = some w') : Errand.weights w'.agenda < Errand.weights w.agenda := by
  obtain ⟨agenda, seen, order⟩ := w
  cases agenda with
  | nil => simp [step?] at h
  | cons errand rest =>
    cases errand with
    | complete t =>
      cases Option.some.inj h
      simp [Errand.weights, Errand.weight]
    | enter t =>
      have ht : t.postorder.length = (t.children.flatMap Term.postorder).length + 1 := by
        rw [Term.postorder_eq, List.length_append, List.length_singleton]
      rw [step?] at h
      dsimp only at h
      split at h
      · cases Option.some.inj h
        simp only [Errand.weights, Errand.weight]
        omega
      · cases Option.some.inj h
        have hahead := Errand.weights_filter (fun c => !(seen.insert t.id).contains c.id) t.children
        simp only [Errand.weights_append, Errand.weights, Errand.weight]
        omega

/-- The walk carried on until nothing is left to do. -/
def run (w : Walk) : Walk :=
  match _h : w.step? with
  | none => w
  | some w' => run w'
termination_by Errand.weights w.agenda
decreasing_by exact weights_step? _h

end Walk

/-- Every distinct subterm once, children before parents. -/
def Term.dag (t : Term) : List Term := (Walk.run ⟨[.enter t], ∅, #[]⟩).order.toList

end TermGraph
