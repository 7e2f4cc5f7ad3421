import Std.Data.ExtTreeMap
import Std.Data.ExtTreeSet
import TermGraph.Term.Basic

/-!
# The order of nodes, and maps over nodes

Nodes are ordered by store and then by position, so a node comes after its children. Shapes are
ordered by a sort key from which the shape can be read back; this order has no meaning of its own
and serves as the key order of a store's index.

Both orders are lawful: they are transitive, and only equal things compare equal. Maps and sets over
them are therefore extensional, so two link tables with the same entries are the same table.
-/

namespace TermGraph

open Std

/-! ## Nodes -/

namespace NodeId

/-- By scope, then by position. -/
def order : NodeId → NodeId → Ordering :=
  compareLex (compareOn NodeId.scope) (compareOn NodeId.position)

instance : Ord NodeId := ⟨order⟩

instance : TransCmp order :=
  inferInstanceAs (TransCmp (compareLex (compareOn NodeId.scope) (compareOn NodeId.position)))

instance : LawfulEqCmp order where
  eq_of_compare {a b} h := by
    have h' : a.scope = b.scope ∧ a.position = b.position := by
      simpa only [order, compareLex, compareOn, Ordering.then_eq_eq,
        LawfulEqOrd.compare_eq_iff_eq] using h
    cases a
    cases b
    cases h'.1
    cases h'.2
    rfl

instance : TransOrd NodeId := inferInstanceAs (TransCmp order)

instance : LawfulEqOrd NodeId := inferInstanceAs (LawfulEqCmp order)

end NodeId

/-! ## Shapes -/

namespace Shape

/-- The number of the variant; the two kinds of constants are told apart. -/
def rank : Shape NodeId → Nat
  | .var _ => 0
  | .const (.integer _) => 1
  | .const (.text _) => 2
  | .fn _ _ => 3
  | .app _ _ => 4
  | .lambda _ => 5
  | .bound _ _ => 6

/-- The name, symbol or text of the shape. -/
def word : Shape NodeId → String
  | .var name => name
  | .const (.text value) => value
  | .fn symbol _ => symbol
  | _ => ""

/-- The numbers of the shape that are not node ids. -/
def numbers : Shape NodeId → List Int
  | .const (.integer value) => [value]
  | .bound index scope => [(index.val : Int), (scope : Int)]
  | _ => []

/-- A shape can be read back from its sort key. -/
theorem eq_of_sortKey {s t : Shape NodeId} (hr : s.rank = t.rank) (hw : s.word = t.word)
    (hn : s.numbers = t.numbers) (hc : s.children = t.children) : s = t := by
  cases s with
  | const a => cases a <;> cases t with
    | const b => cases b <;> simp_all [rank, word, numbers]
    | _ => simp_all [rank]
  | bound i p => cases t with
    | bound j q =>
      simp only [numbers, List.cons.injEq, Int.natCast_inj, and_true] at hn
      rw [Fin.ext hn.1, hn.2]
    | const b => cases b <;> simp_all [rank]
    | _ => simp_all [rank]
  | _ => cases t with
    | const b => cases b <;> simp_all [rank]
    | _ => simp_all [rank, word, children]

/-- By variant, then word, then numbers, then children. -/
def order : Shape NodeId → Shape NodeId → Ordering :=
  compareLex (compareOn rank) (compareLex (compareOn word)
    (compareLex (compareOn numbers) (compareOn children)))

instance : TransCmp order :=
  inferInstanceAs (TransCmp (compareLex (compareOn rank) (compareLex (compareOn word)
    (compareLex (compareOn numbers) (compareOn children)))))

instance : LawfulEqCmp order where
  eq_of_compare {s t} h := by
    have h' : s.rank = t.rank ∧ s.word = t.word ∧ s.numbers = t.numbers ∧
        s.children = t.children := by
      simpa only [order, compareLex, compareOn, Ordering.then_eq_eq,
        LawfulEqOrd.compare_eq_iff_eq] using h
    exact eq_of_sortKey h'.1 h'.2.1 h'.2.2.1 h'.2.2.2

end Shape

/-! ## Maps and sets -/

/-- A finite map from nodes. -/
abbrev NodeMap (α : Type) := ExtTreeMap NodeId α NodeId.order

/-- A finite set of nodes. -/
abbrev NodeSet := ExtTreeSet NodeId NodeId.order

/-- A finite map from shapes over node ids. -/
abbrev ShapeMap (α : Type) := ExtTreeMap (Shape NodeId) α Shape.order

theorem NodeMap.getElem?_insert {α : Type} (m : NodeMap α) (k a : NodeId) (v : α) :
    (m.insert k v)[a]? = if k = a then some v else m[a]? := by
  rw [ExtTreeMap.getElem?_insert]
  simp only [LawfulEqCmp.compare_eq_iff_eq]

theorem NodeMap.getElem?_erase {α : Type} (m : NodeMap α) (k a : NodeId) :
    (m.erase k)[a]? = if k = a then none else m[a]? := by
  rw [ExtTreeMap.getElem?_erase]
  simp only [LawfulEqCmp.compare_eq_iff_eq]

theorem NodeSet.mem_insert (s : NodeSet) (k a : NodeId) : a ∈ s.insert k ↔ k = a ∨ a ∈ s := by
  rw [ExtTreeSet.mem_insert]
  simp only [LawfulEqCmp.compare_eq_iff_eq]

theorem NodeSet.mem_erase (s : NodeSet) (k a : NodeId) : a ∈ s.erase k ↔ k ≠ a ∧ a ∈ s := by
  rw [ExtTreeSet.mem_erase]
  simp only [ne_eq, LawfulEqCmp.compare_eq_iff_eq]

theorem ShapeMap.getElem?_insert {α : Type} (m : ShapeMap α) (k a : Shape NodeId) (v : α) :
    (m.insert k v)[a]? = if k = a then some v else m[a]? := by
  rw [ExtTreeMap.getElem?_insert]
  simp only [LawfulEqCmp.compare_eq_iff_eq]

/-- A node seen from below a number of binders. -/
abbrev Sight := NodeId × Index

namespace Sight

/-- By node, then by the number of binders. -/
def order : Sight → Sight → Ordering :=
  compareLex (compareOn Prod.fst) (compareOn (fun sight => sight.2.val))

instance : TransCmp order :=
  inferInstanceAs (TransCmp (compareLex (compareOn (Prod.fst : Sight → NodeId))
    (compareOn (fun sight : Sight => sight.2.val))))

instance : LawfulEqCmp order where
  eq_of_compare {a b} h := by
    have h' : a.1 = b.1 ∧ a.2.val = b.2.val := by
      simpa only [order, compareLex, compareOn, Ordering.then_eq_eq,
        LawfulEqOrd.compare_eq_iff_eq] using h
    exact Prod.ext h'.1 (Fin.ext h'.2)

end Sight

/-- A finite map from nodes seen from below binders. -/
abbrev SightMap (α : Type) := ExtTreeMap Sight α Sight.order

theorem SightMap.getElem?_insert {α : Type} (m : SightMap α) (k a : Sight) (v : α) :
    (m.insert k v)[a]? = if k = a then some v else m[a]? := by
  rw [ExtTreeMap.getElem?_insert]
  simp only [LawfulEqCmp.compare_eq_iff_eq]

end TermGraph
