import TermGraph.Proofs.Tree.Postorder

/-!
# What is added to a store

In a canonical store a tree has one node at most, so what a computation adds to the store is determined by
the trees that it asks for, in their order: those that are not there yet, each where it is asked for first.
Interning asks for the tree of one node, and additions are put together one after the other.
-/

namespace TermGraph.Store

variable {store store₁ store' : Store} {shape : Shape Term}

/-- The trees of the nodes, in order of creation. -/
def trees (store : Store) : List (Tree Slot) := store.nodes.toList.map Term.tree

/-- Just the trees of the list that were not there have been added, in the order of first occurrence. -/
def Adds (store store' : Store) (ts : List (Tree Slot)) : Prop :=
  store'.trees = store.trees ++ unlisted store.trees ts

theorem Adds.trans {ts us : List (Tree Slot)} (h : store.Adds store₁ ts) (h' : store₁.Adds store' us) :
    store.Adds store' (ts ++ us) := by
  rw [Adds, h', h, unlisted_append, List.append_assoc]

theorem Adds.nil (store : Store) : store.Adds store [] := by
  simp [Adds, unlisted]

/-- What has been asked for is there. -/
theorem Adds.mem_trees {ts : List (Tree Slot)} (h : store.Adds store' ts) : ∀ t ∈ ts, t ∈ store'.trees := by
  intro t ht
  rw [h, List.mem_append, mem_unlisted]
  tauto

theorem Owns.mem_trees {t : Term} (h : store.Owns t) : t.tree ∈ store.trees :=
  List.mem_map_of_mem (Array.mem_toList_iff.mpr (Array.mem_of_getElem? h))

theorem trees_subset_of_le (h : store ≤ store') {t : Tree Slot} (ht : t ∈ store.trees) : t ∈ store'.trees :=
  List.map_subset _ (prefix_of_le h).subset ht

namespace Canonical

variable (h : store.Canonical)

include h

theorem exists_owns_of_mem_trees {tree : Tree Slot} (htree : tree ∈ store.trees) :
    ∃ t, store.Owns t ∧ t.tree = tree := by
  obtain ⟨t, ht, rfl⟩ := List.mem_map.mp htree
  obtain ⟨i, hi⟩ := List.mem_iff_getElem?.mp ht
  exact ⟨t, h.owns_of_getElem? (Array.getElem?_toList ▸ hi), rfl⟩

/-- Interning asks for the tree with the shape at its root. -/
theorem adds_intern (hc : ∀ c ∈ shape.children, store.Owns c) :
    store.Adds (store.intern shape).2 [Tree.ofShape (shape.map Term.tree)] := by
  cases hk : store.index[shape.map Term.id]? with
  | some t =>
    obtain ⟨hrun, ht, hshape⟩ := h.intern_known hc hk
    have hmem : Tree.ofShape (shape.map Term.tree) ∈ store.trees := by
      rw [← hshape, ← Term.tree_eq_ofShape]
      exact ht.mem_trees
    rw [Adds, hrun, unlisted_eq_nil (by simpa using hmem), List.append_nil]
  | none =>
    -- a node with the tree has the shape, since its children have the trees of the shape's children
    have hnew : Tree.ofShape (shape.map Term.tree) ∉ store.trees := by
      intro hmem
      obtain ⟨t, ht, htree⟩ := h.exists_owns_of_mem_trees hmem
      rw [Term.tree_eq_ofShape] at htree
      have hshape : t.shape = shape := Shape.eq_of_map_eq (Tree.ofShape_injective htree)
        fun a ha b hb hab => h.eq_of_tree_eq (h.owns_child ht ha) (hc b hb) hab
      rw [← hshape, ← Term.key, (h.index_iff _ _).mpr ⟨ht, rfl⟩] at hk
      cases hk
    rw [Adds, h.intern_new hc hk, unlisted_singleton hnew, trees, Store.push, Array.toList_push, List.map_append,
      List.map_singleton, fresh, Term.tree_eq_ofShape (.ofShape _ _), Term.shape_ofShape, trees]

/-- A canonical store is determined by its scope and its nodes, so it is the same store as long as nothing has been
added. -/
theorem eq_of_adds {ts : List (Tree Slot)} (h' : store'.Canonical) (hle : store ≤ store') (hadds : store.Adds store' ts)
    (hts : ∀ t ∈ ts, t ∈ store.trees) : store' = store := by
  have htrees : store'.trees = store.trees := by
    rw [hadds, unlisted_eq_nil hts, List.append_nil]
  have hlength : store.nodes.toList.length = store'.nodes.toList.length := by
    simpa [trees] using (congrArg List.length htrees).symm
  have hnodes : store'.nodes = store.nodes :=
    Array.toList_inj.mp ((prefix_of_le hle).eq_of_length hlength).symm
  have howns : ∀ {t}, store'.Owns t ↔ store.Owns t := by
    intro t
    rw [Owns, Owns, hnodes]
  have hindex : store'.index = store.index := Std.ExtTreeMap.ext_getElem? fun {key} => Option.ext fun t => by
    rw [h'.index_iff, h.index_iff, howns]
  obtain ⟨scope, nodes, index⟩ := store
  obtain ⟨scope', nodes', index'⟩ := store'
  cases scope_eq_of_le hle
  cases hnodes
  cases hindex
  rfl

end Canonical

end TermGraph.Store
