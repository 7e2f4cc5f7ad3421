import TermGraph.Proofs.Discipline
import TermGraph.Proofs.Store.Canonical

/-!
# Custody of terms

What a computation on a store may count on depends on the terms it is given. A custody is a predicate on
terms that grows with the store, passes to children and tells terms apart by their ids. There are two of
them: the nodes of the store itself, with which no computation is ever refused, and the nodes of all
stores there are, with which a computation may be refused but never harms the store.

Whatever is built from terms in custody is in custody again, and building keeps the store canonical.
-/

namespace TermGraph

/-- A store is canonical between any two steps, and only grows. -/
def building : Discipline Store where
  sound := Store.Canonical
  grows := (· ≤ ·)
  refl := le_refl
  trans := le_trans

/-- Terms that a computation on a store may be given, and the faults that they may cause. -/
structure Custody where
  has : Store → Term → Prop
  fails : Fault → Prop
  mono : ∀ {store store' : Store} {t : Term}, store ≤ store' → has store t → has store' t
  child : ∀ {store : Store} {t c : Term},
    store.Canonical → has store t → c ∈ t.children → has store c
  unique : ∀ {store : Store} {t u : Term},
    store.Canonical → has store t → has store u → t.id = u.id → t = u
  scope_child : ∀ {store : Store} {t c : Term},
    store.Canonical → has store t → c ∈ t.children → c.scope = t.scope
  eq_of_tree_eq : ∀ {store : Store} {t u : Term}, store.Canonical → has store t → has store u →
    t.scope = u.scope → t.tree = u.tree → t = u
  depth : ∀ {store : Store} {t : Term},
    store.Canonical → has store t → t.freeDepth = Term.depthOf t.shape
  of_owns : ∀ {store : Store} {t : Term}, store.Owns t → has store t
  owns : ∀ {store : Store} {t : Term}, has store t → store.contains t = true → store.Owns t
  refuses : ∀ {store : Store} {t : Term},
    store.Canonical → has store t → store.contains t = false → fails (.breach .foreignChild)

/-- The custody of the store's own nodes. -/
def Custody.own : Custody where
  has := Store.Owns
  fails _ := False
  mono h ht := ht.mono h
  child h ht hc := h.owns_child ht hc
  unique _ ht hu := ht.eq_of_id_eq hu
  scope_child h ht hc := (h.scope_eq (h.owns_child ht hc)).trans (h.scope_eq ht).symm
  eq_of_tree_eq h ht hu _ := h.eq_of_tree_eq ht hu
  depth h ht := h.freeDepth_eq ht
  of_owns ht := ht
  owns ht _ := ht
  refuses h ht hc := by rw [h.contains ht] at hc; cases hc

/-! ## All stores there are -/

/-- The stores there are, by scope. A scope that is not in use yet has an empty store. -/
abbrev Stores := Nat → Store

namespace Stores

/-- Every store is canonical and is kept under its own scope. -/
def Canonical (stores : Stores) : Prop := ∀ k, (stores k).Canonical ∧ (stores k).scope = k

/-- The term is a node of the given store, or of one of the others. -/
def Holds (stores : Stores) (store : Store) (t : Term) : Prop :=
  store.Owns t ∨ (t.scope ≠ store.scope ∧ (stores t.scope).Owns t)

variable {stores : Stores} {store store' : Store} {t u c : Term}

theorem Holds.mono (h : store ≤ store') (ht : stores.Holds store t) : stores.Holds store' t := by
  rcases ht with ht | ⟨hs, ht⟩
  · exact Or.inl (ht.mono h)
  · exact Or.inr ⟨by rw [Store.scope_eq_of_le h]; exact hs, ht⟩

theorem Holds.owns (ht : stores.Holds store t) (hc : store.contains t = true) : store.Owns t := by
  rcases ht with ht | ⟨hs, -⟩
  · exact ht
  · exact absurd (Store.contains_iff.mp hc) hs

theorem Holds.scope_child (hstores : stores.Canonical) (h : store.Canonical)
    (ht : stores.Holds store t) (hc : c ∈ t.children) : c.scope = t.scope := by
  rcases ht with ht | ⟨-, ht⟩
  · exact (h.scope_eq (h.owns_child ht hc)).trans (h.scope_eq ht).symm
  · have hcanon := (hstores t.scope).1
    exact (hcanon.scope_eq (hcanon.owns_child ht hc)).trans (hcanon.scope_eq ht).symm

theorem Holds.child (hstores : stores.Canonical) (h : store.Canonical) (ht : stores.Holds store t)
    (hc : c ∈ t.children) : stores.Holds store c := by
  have hscope := ht.scope_child hstores h hc
  rcases ht with ht | ⟨hs, ht⟩
  · exact Or.inl (h.owns_child ht hc)
  · have hchild := (hstores t.scope).1.owns_child ht hc
    exact Or.inr ⟨by rw [hscope]; exact hs, by rw [hscope]; exact hchild⟩

theorem Holds.eq_of_id_eq (hcanon : store.Canonical) (ht : stores.Holds store t)
    (hu : stores.Holds store u) (hid : t.id = u.id) : t = u := by
  have hscope := Term.scope_congr hid
  rcases ht with ht | ⟨hs, ht⟩
  · have hcu : store.contains u = true := by
      rw [Store.contains_iff, ← hscope, hcanon.scope_eq ht]
    exact ht.eq_of_id_eq (hu.owns hcu) hid
  · rcases hu with hu | ⟨-, hu⟩
    · exact absurd (hscope.trans (hcanon.scope_eq hu)) hs
    · rw [← hscope] at hu
      exact ht.eq_of_id_eq hu hid

/-- In one scope, equal trees are the same node. -/
theorem Holds.eq_of_tree_eq (hstores : stores.Canonical) (hcanon : store.Canonical)
    (ht : stores.Holds store t) (hu : stores.Holds store u) (hscope : t.scope = u.scope)
    (htree : t.tree = u.tree) : t = u := by
  by_cases hc : store.contains t = true
  · have hcu : store.contains u = true := by
      rw [Store.contains_iff] at hc ⊢
      rw [← hscope, hc]
    exact hcanon.eq_of_tree_eq (ht.owns hc) (hu.owns hcu) htree
  · have hne : t.scope ≠ store.scope := fun h => hc (Store.contains_iff.mpr h)
    have ht' : (stores t.scope).Owns t := by
      rcases ht with ht | ⟨-, ht⟩
      · exact absurd (hcanon.scope_eq ht) hne
      · exact ht
    have hu' : (stores t.scope).Owns u := by
      rcases hu with hu | ⟨-, hu⟩
      · exact absurd (hscope.trans (hcanon.scope_eq hu)) hne
      · rw [hscope]
        exact hu
    exact (hstores t.scope).1.eq_of_tree_eq ht' hu' htree

end Stores

/-- The custody of the nodes of all stores. -/
def Custody.held (stores : Stores) (h : stores.Canonical) : Custody where
  has := stores.Holds
  fails _ := True
  mono hle ht := ht.mono hle
  child hcanon ht hc := ht.child h hcanon hc
  unique hcanon ht hu := ht.eq_of_id_eq hcanon hu
  scope_child hcanon ht hc := ht.scope_child h hcanon hc
  eq_of_tree_eq hcanon ht hu := ht.eq_of_tree_eq h hcanon hu
  depth hcanon ht := by
    rcases ht with ht | ⟨-, ht⟩
    · exact hcanon.freeDepth_eq ht
    · exact (h _).1.freeDepth_eq ht
  of_owns ht := Or.inl ht
  owns ht hc := ht.owns hc
  refuses _ _ _ := trivial

end TermGraph
