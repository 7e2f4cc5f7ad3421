import Mathlib.Order.Defs.PartialOrder
import TermGraph.Proofs.Related
import TermGraph.Store.Basic
import TermGraph.Tree

/-!
# Canonical stores

A store is canonical if its nodes sit where their ids say, have their children before them in the same
store, and are found under their shape by an index that holds nothing else. In a canonical store a node
is determined by its shape, hence by its whole tree: identity is structural equality.

Interning keeps a store canonical. A store only ever grows, and `≤` is the order in which it does.

## Main statements

* `Canonical.intern` — what interning a shape over the store's own nodes does
* `Canonical.eq_of_tree_eq` — **two nodes that unfold to the same tree are the same node**
-/

namespace TermGraph

/-! ## Shapes -/

namespace Shape

variable {α β γ : Type}

@[simp] theorem map_map (f : α → β) (g : β → γ) (s : Shape α) :
    (s.map f).map g = s.map (g ∘ f) := by
  cases s <;> simp [map]

theorem map_congr {f g : α → β} {s : Shape α} (h : ∀ a ∈ s.children, f a = g a) :
    s.map f = s.map g := by
  cases s <;> simp_all [map, children]

/-- Where `f` tells the children apart, the shape can be read off its image. -/
theorem eq_of_map_eq {f : α → β} {s t : Shape α} (h : s.map f = t.map f)
    (hf : ∀ a ∈ s.children, ∀ b ∈ t.children, f a = f b → a = b) : s = t := by
  cases s <;> cases t <;> simp only [map, reduceCtorEq, Shape.fn.injEq, Shape.app.injEq,
    Shape.lambda.injEq, Shape.var.injEq, Shape.const.injEq, Shape.bound.injEq] at h
  case fn.fn => rw [h.1, list_eq_of_map_eq h.2 hf]
  case app.app =>
    rw [hf _ (by simp [children]) _ (by simp [children]) h.1,
      hf _ (by simp [children]) _ (by simp [children]) h.2]
  case lambda.lambda => rw [hf _ (by simp [children]) _ (by simp [children]) h]
  all_goals simp_all

end Shape

/-! ## Trees level by level -/

namespace Tree

variable {ν : Type}

/-- The tree with the given root, whose bound variables are slots. -/
def ofShape : Shape (Tree Slot) → Tree Slot
  | .var name => .var name
  | .const value => .const value
  | .fn symbol args => .fn symbol args
  | .app function argument => .app function argument
  | .lambda body => .lambda body
  | .bound index scope => .bound ⟨index, scope⟩

theorem ofShape_injective {s t : Shape (Tree Slot)} (h : ofShape s = ofShape t) : s = t := by
  cases s <;> cases t <;> simp_all [ofShape]

/-- The root with its children. -/
def shape : Tree Slot → Shape (Tree Slot)
  | .var name => .var name
  | .const value => .const value
  | .fn symbol args => .fn symbol args
  | .app function argument => .app function argument
  | .lambda body => .lambda body
  | .bound slot => .bound slot.index slot.scope

@[simp] theorem shape_ofShape (s : Shape (Tree Slot)) : (ofShape s).shape = s := by
  cases s <;> rfl

@[simp] theorem ofShape_shape (t : Tree Slot) : ofShape t.shape = t := by
  cases t <;> rfl

/-- The children, in order. -/
def children (t : Tree Slot) : List (Tree Slot) := t.shape.children

end Tree

theorem Term.tree_eq_ofShape (t : Term) : t.tree = Tree.ofShape (t.shape.map Term.tree) := by
  cases t <;> simp [Term.tree, Term.shape, Shape.map, Tree.ofShape, Term.trees_eq_map]

@[simp] theorem Term.shape_tree (t : Term) : t.tree.shape = t.shape.map Term.tree := by
  rw [Term.tree_eq_ofShape, Tree.shape_ofShape]

theorem Term.children_tree (t : Term) : t.tree.children = t.children.map Term.tree := by
  rw [Tree.children, Term.shape_tree, Shape.children_map, Term.children]

namespace Store

/-! ## Owning a node -/

/-- The node is the one that the store has at the node's position. -/
def Owns (store : Store) (t : Term) : Prop := store.nodes[t.position]? = some t

/-- Every node is where its id says, comes after its children and is stamped with its free depth, and
the index maps the shape of each node to that node and nothing else to anything. -/
structure Canonical (store : Store) : Prop where
  id_eq : ∀ (i : Nat) (t : Term), store.nodes[i]? = some t → t.id = ⟨store.scope, i⟩
  child : ∀ (i : Nat) (t : Term), store.nodes[i]? = some t → ∀ c ∈ t.children, c.position < i ∧ store.Owns c
  depth : ∀ (i : Nat) (t : Term), store.nodes[i]? = some t → t.freeDepth = Term.depthOf t.shape
  index_iff : ∀ (key : Shape NodeId) (t : Term), store.index[key]? = some t ↔ store.Owns t ∧ t.key = key

/-- Stores grow by further nodes. -/
instance : Preorder Store where
  le store store' := store.scope = store'.scope ∧ store.nodes.toList <+: store'.nodes.toList
  le_refl store := ⟨rfl, List.prefix_refl _⟩
  le_trans _ _ _ h h' := ⟨h.1.trans h'.1, h.2.trans h'.2⟩

variable {store store' : Store} {t u c : Term}

theorem scope_eq_of_le (h : store ≤ store') : store'.scope = store.scope := h.1.symm

theorem prefix_of_le (h : store ≤ store') : store.nodes.toList <+: store'.nodes.toList := h.2

theorem getElem?_of_le (h : store ≤ store') {i : Nat} (ht : store.nodes[i]? = some t) :
    store'.nodes[i]? = some t := by
  rw [← Array.getElem?_toList] at ht ⊢
  obtain ⟨rest, hrest⟩ := prefix_of_le h
  rw [← hrest, List.getElem?_append_left (List.getElem?_eq_some_iff.mp ht).1]
  exact ht

theorem Owns.mono (ht : store.Owns t) (h : store ≤ store') : store'.Owns t := getElem?_of_le h ht

/-- An id names one node. -/
theorem Owns.eq_of_id_eq (ht : store.Owns t) (hu : store.Owns u) (hid : t.id = u.id) : t = u := by
  have hp : t.position = u.position := by rw [Term.position, Term.position, hid]
  rw [Owns, hp] at ht
  exact Option.some.inj (ht.symm.trans hu)

theorem contains_iff : store.contains t = true ↔ t.scope = store.scope := beq_iff_eq

/-- A new node is the one that comes next. -/
theorem owns_push_iff {key : Shape NodeId} {shape : Shape Term} :
    (store.push key (store.fresh shape)).Owns t ↔ store.Owns t ∨ t = store.fresh shape := by
  have hpos : (store.fresh shape).position = store.nodes.size := by
    simp [fresh, Term.position]
  rw [Owns, Owns, push]
  dsimp only
  rw [Array.getElem?_push]
  split
  · next he =>
    constructor
    · intro ht
      exact Or.inr (Option.some.inj ht).symm
    · rintro (ht | rfl)
      · rw [he, Array.getElem?_eq_none (Nat.le_refl _)] at ht
        exact absurd ht (by simp)
      · rfl
  · next he =>
    constructor
    · intro ht
      exact Or.inl ht
    · rintro (ht | rfl)
      · exact ht
      · exact absurd hpos he

theorem le_push {key : Shape NodeId} : store ≤ store.push key t :=
  ⟨rfl, by simp [push]⟩

namespace Canonical

theorem empty (scope : Nat) : (Store.empty scope).Canonical where
  id_eq i t h := by simp [Store.empty] at h
  child i t h := by simp [Store.empty] at h
  depth i t h := by simp [Store.empty] at h
  index_iff key t := by simp [Store.empty, Owns]

variable (h : store.Canonical)

include h

theorem owns_of_getElem? {i : Nat} (ht : store.nodes[i]? = some t) : store.Owns t := by
  have hp : t.position = i := by rw [Term.position, h.id_eq i t ht]
  rw [Owns, hp]
  exact ht

theorem scope_eq (ht : store.Owns t) : t.scope = store.scope := by
  rw [Term.scope, h.id_eq _ _ ht]

theorem contains (ht : store.Owns t) : store.contains t = true := contains_iff.mpr (h.scope_eq ht)

theorem owns_child (ht : store.Owns t) (hc : c ∈ t.children) : store.Owns c :=
  (h.child _ _ ht c hc).2

theorem position_lt (ht : store.Owns t) (hc : c ∈ t.children) : c.position < t.position :=
  (h.child _ _ ht c hc).1

theorem freeDepth_eq (ht : store.Owns t) : t.freeDepth = Term.depthOf t.shape := h.depth _ _ ht

/-- In a canonical store a shape over ids is the shape of one node. -/
theorem eq_of_key_eq (ht : store.Owns t) (hu : store.Owns u) (hkey : t.key = u.key) : t = u := by
  have h1 : store.index[u.key]? = some t := (h.index_iff _ _).mpr ⟨ht, hkey⟩
  have h2 : store.index[u.key]? = some u := (h.index_iff _ _).mpr ⟨hu, rfl⟩
  exact Option.some.inj (h1.symm.trans h2)

theorem eq_of_shape_eq (ht : store.Owns t) (hu : store.Owns u) (hs : t.shape = u.shape) :
    t = u :=
  h.eq_of_key_eq ht hu (by rw [Term.key, Term.key, hs])

/-- **Two nodes of a canonical store that unfold to the same tree are the same node.** -/
theorem eq_of_tree_eq (ht : store.Owns t) (hu : store.Owns u) (htree : t.tree = u.tree) :
    t = u := by
  -- children come before their parents, so the induction is on the position
  induction hn : t.position using Nat.strongRecOn generalizing t u with
  | _ n ih =>
    subst hn
    have hshape : t.shape.map Term.tree = u.shape.map Term.tree := by
      rw [Term.tree_eq_ofShape t, Term.tree_eq_ofShape u] at htree
      exact Tree.ofShape_injective htree
    refine h.eq_of_shape_eq ht hu (Shape.eq_of_map_eq hshape fun a ha b hb hab => ?_)
    exact ih a.position (h.position_lt ht ha) (h.owns_child ht ha) (h.owns_child hu hb) hab rfl

theorem tree_eq_iff (ht : store.Owns t) (hu : store.Owns u) : t.tree = u.tree ↔ t = u :=
  ⟨h.eq_of_tree_eq ht hu, fun e => by rw [e]⟩

/-! ## Interning -/

variable {shape : Shape Term}

/-- A shape over the store's own nodes that is not in the index yet may be added. -/
theorem push (hc : ∀ c ∈ shape.children, store.Owns c)
    (hnew : store.index[shape.map Term.id]? = none) :
    (store.push (shape.map Term.id) (store.fresh shape)).Canonical := by
  have hsize : ∀ i t, (store.push (shape.map Term.id) (store.fresh shape)).nodes[i]? = some t →
      store.nodes[i]? = some t ∨ i = store.nodes.size ∧ t = store.fresh shape := by
    intro i t ht
    rw [Store.push] at ht
    dsimp only at ht
    rw [Array.getElem?_push] at ht
    split at ht
    · next he => exact Or.inr ⟨he, (Option.some.inj ht).symm⟩
    · exact Or.inl ht
  refine ⟨fun i t ht => ?_, fun i t ht c hct => ?_, fun i t ht => ?_, fun key t => ?_⟩
  · rcases hsize i t ht with ht | ⟨rfl, rfl⟩
    · exact h.id_eq i t ht
    · simp [fresh]
  · rcases hsize i t ht with ht | ⟨rfl, rfl⟩
    · exact ⟨(h.child i t ht c hct).1, (h.child i t ht c hct).2.mono le_push⟩
    · rw [fresh, Term.children_ofShape] at hct
      exact ⟨(Array.getElem?_eq_some_iff.mp (hc c hct)).1, (hc c hct).mono le_push⟩
  · rcases hsize i t ht with ht | ⟨rfl, rfl⟩
    · exact h.depth i t ht
    · simp [fresh, Term.freeDepth]
  · rw [owns_push_iff, Store.push]
    dsimp only
    rw [ShapeMap.getElem?_insert]
    split
    · next he =>
      subst he
      constructor
      · intro ht
        cases ht
        exact ⟨Or.inr rfl, Term.key_ofShape _ _⟩
      · rintro ⟨ht | rfl, hkey⟩
        · rw [(h.index_iff _ _).mpr ⟨ht, hkey⟩] at hnew
          cases hnew
        · rfl
    · next he =>
      rw [h.index_iff]
      constructor
      · rintro ⟨ht, hkey⟩
        exact ⟨Or.inl ht, hkey⟩
      · rintro ⟨ht | rfl, hkey⟩
        · exact ⟨ht, hkey⟩
        · exact absurd ((Term.key_ofShape _ _).symm.trans hkey) he

/-- A shape whose key is that of a node is the order for that node. -/
theorem intern_of_key (hall : shape.children.all store.contains = true) (ht : store.Owns t)
    (hkey : t.key = shape.map Term.id) : store.intern shape = (.ok t, store) := by
  refine intern_of_known hall ((h.index_iff _ _).mpr ⟨ht, hkey⟩) fun c hc => ?_
  have hids : t.children.map Term.id = shape.children.map Term.id := by
    rw [← Term.children_key, hkey, Shape.children_map]
  obtain ⟨c', hc', hid⟩ := List.mem_map.mp (hids ▸ List.mem_map_of_mem hc)
  have hlt := h.position_lt ht hc'
  rwa [Term.position, hid] at hlt

/-- A shape over the store's own nodes that is in the index is the shape of the node found there, and
interning it changes nothing. -/
theorem intern_known (hc : ∀ c ∈ shape.children, store.Owns c) (hk : store.index[shape.map Term.id]? = some t) :
    store.intern shape = (.ok t, store) ∧ store.Owns t ∧ t.shape = shape := by
  obtain ⟨ht, hkey⟩ := (h.index_iff _ _).mp hk
  have hshape : t.shape = shape := Shape.eq_of_map_eq hkey fun a ha b hb hab =>
    (h.owns_child ht ha).eq_of_id_eq (hc b hb) hab
  exact ⟨h.intern_of_key (List.all_eq_true.mpr fun c hcm => h.contains (hc c hcm)) ht hkey, ht, hshape⟩

/-- A shape over the store's own nodes that is not in the index gets the next node. -/
theorem intern_new (hc : ∀ c ∈ shape.children, store.Owns c) (hk : store.index[shape.map Term.id]? = none) :
    store.intern shape = (.ok (store.fresh shape), store.push (shape.map Term.id) (store.fresh shape)) :=
  intern_of_new (List.all_eq_true.mpr fun c hcm => h.contains (hc c hcm)) hk

/-- Interning a shape over the store's own nodes gives the one node of that shape. -/
theorem intern (hc : ∀ c ∈ shape.children, store.Owns c) :
    ∃ t store', store.intern shape = (.ok t, store') ∧ store'.Canonical ∧ store ≤ store' ∧
      store'.Owns t ∧ t.shape = shape := by
  cases hk : store.index[shape.map Term.id]? with
  | some t =>
    obtain ⟨hrun, ht, hshape⟩ := h.intern_known hc hk
    exact ⟨t, store, hrun, h, le_refl _, ht, hshape⟩
  | none =>
    exact ⟨_, _, h.intern_new hc hk, h.push hc hk, le_push, owns_push_iff.mpr (Or.inr rfl), Term.shape_ofShape _ _⟩

end Canonical

end Store

end TermGraph
