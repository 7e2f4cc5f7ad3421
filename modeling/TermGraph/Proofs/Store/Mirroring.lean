import TermGraph.Proofs.Related
import TermGraph.Proofs.Store.Custody
import TermGraph.Proofs.Tree.Renaming

/-!
# Nodes of two stores that mirror each other

Two stores have the same terms at different positions, in different company and under different scopes. A node of the
one mirrors a node of the other if they unfold to the same tree, up to a renaming of scopes. In canonical stores a
node has one mirror image at most, so everything that is decided by the identity of nodes is decided alike in both
stores.

## Main statements

* `Store.Mirror.twins` — mirrored nodes agree at the root and have mirrored children
* `Store.Mirror.id_eq_iff` — **mirrored nodes are the same exactly if their images are**
-/

namespace TermGraph

variable {ρ : Equiv.Perm Nat} {R R' : Term → Term → Prop} {t u : Term}

/-! ## One level of two terms -/

/-- The roots of the two terms are the same, up to the renaming, and their children are related. -/
inductive Term.Twins (ρ : Equiv.Perm Nat) (R : Term → Term → Prop) : Term → Term → Prop
  | var (stamp stamp' : Stamp) (name : String) : Twins ρ R (.var stamp name) (.var stamp' name)
  | const (stamp stamp' : Stamp) (value : Literal) : Twins ρ R (.const stamp value) (.const stamp' value)
  | fn (stamp stamp' : Stamp) (symbol : String) {args args' : List Term} (children : List.Forall₂ R args args') :
      Twins ρ R (.fn stamp symbol args) (.fn stamp' symbol args')
  | app (stamp stamp' : Stamp) {f a f' a' : Term} (function : R f f') (argument : R a a') :
      Twins ρ R (.app stamp f a) (.app stamp' f' a')
  | lambda (stamp stamp' : Stamp) {body body' : Term} (child : R body body') :
      Twins ρ R (.lambda stamp body) (.lambda stamp' body')
  | bound (stamp stamp' : Stamp) (index : Index) (scope : Nat) :
      Twins ρ R (.bound stamp index scope) (.bound stamp' index (ρ scope))

namespace Term.Twins

theorem children (h : Twins ρ R t u) : List.Forall₂ R t.children u.children := by
  cases h with
  | var | const | bound => exact .nil
  | fn _ _ _ children => exact children
  | app _ _ function argument => exact .cons function (.cons argument .nil)
  | lambda _ _ child => exact .cons child .nil

theorem mono (h : Twins ρ R t u) (hR : ∀ c ∈ t.children, ∀ c' ∈ u.children, R c c' → R' c c') :
    Twins ρ R' t u := by
  have hchildren := forall₂_imp_mem h.children hR
  cases h with
  | var stamp stamp' name => exact .var stamp stamp' name
  | const stamp stamp' value => exact .const stamp stamp' value
  | fn stamp stamp' symbol _ => exact .fn stamp stamp' symbol hchildren
  | app stamp stamp' _ _ =>
    obtain ⟨function, argument, -⟩ := List.forall₂_cons.mp hchildren |>.imp_right List.forall₂_cons.mp
    exact .app stamp stamp' function argument
  | lambda stamp stamp' _ => exact .lambda stamp stamp' (List.forall₂_cons.mp hchildren).1
  | bound stamp stamp' index scope => exact .bound stamp stamp' index scope

theorem symm (h : Twins ρ R t u) : Twins ρ.symm (flip R) u t := by
  cases h with
  | var stamp stamp' name => exact .var stamp' stamp name
  | const stamp stamp' value => exact .const stamp' stamp value
  | fn stamp stamp' symbol children => exact .fn stamp' stamp symbol children.flip
  | app stamp stamp' function argument => exact .app stamp' stamp function argument
  | lambda stamp stamp' child => exact .lambda stamp' stamp child
  | bound stamp stamp' index scope =>
    have h : Twins ρ.symm (flip R) (.bound stamp' index (ρ scope)) (.bound stamp index (ρ.symm (ρ scope))) :=
      .bound stamp' stamp index (ρ scope)
    rwa [Equiv.symm_apply_apply] at h

/-- What is made of the children and is renamed alike makes one level that is renamed. -/
theorem shape_map {f f' : Term → Tree Slot} (h : Twins ρ (fun c c' => f' c' = (f c).rename ρ) t u) :
    u.shape.map f' = ((t.shape.map f).map (Tree.rename ρ)).rename ρ := by
  cases h with
  | var | const | bound => rfl
  | fn _ _ _ children =>
    have hargs := map_eq_of_forall₂ children.flip fun c' _ c _ hcc' => hcc'
    simp only [shape, Shape.map, Shape.rename, List.map_map, hargs, Function.comp_def]
  | app _ _ function argument => simp only [shape, Shape.map, Shape.rename, function, argument]
  | lambda _ _ child => simp only [shape, Shape.map, Shape.rename, child]

/-- Terms whose levels are renamed alike are twins. -/
theorem of_shape_map {f f' : Term → Tree Slot}
    (h : u.shape.map f' = ((t.shape.map f).map (Tree.rename ρ)).rename ρ) :
    Twins ρ (fun c c' => f' c' = (f c).rename ρ) t u := by
  cases t <;> cases u <;> simp only [shape, Shape.map, Shape.rename, Shape.var.injEq, Shape.const.injEq,
    Shape.fn.injEq, Shape.app.injEq, Shape.lambda.injEq, Shape.bound.injEq, reduceCtorEq] at h
  case var.var => exact h ▸ .var _ _ _
  case const.const => exact h ▸ .const _ _ _
  case fn.fn =>
    obtain ⟨rfl, hargs⟩ := h
    rw [List.map_map] at hargs
    exact .fn _ _ _ (forall₂_of_map_eq hargs.symm fun c _ c' _ hcc' => hcc'.symm)
  case app.app => exact .app _ _ h.1 h.2
  case lambda.lambda => exact .lambda _ _ h
  case bound.bound =>
    obtain ⟨rfl, rfl⟩ := h
    exact .bound _ _ _ _

end Term.Twins

/-! ## Mirrored nodes -/

/-- The nodes of the two stores unfold to the same tree, up to the renaming. -/
structure Store.Mirror (ρ : Equiv.Perm Nat) (here there : Store) (t u : Term) : Prop where
  owns : here.Owns t
  image : there.Owns u
  tree : u.tree = t.tree.rename ρ

namespace Store.Mirror

variable {here there here' there' : Store} {t' u' : Term}

theorem mono (h : Mirror ρ here there t u) (hle : here ≤ here') (hle' : there ≤ there') :
    Mirror ρ here' there' t u where
  owns := h.owns.mono hle
  image := h.image.mono hle'
  tree := h.tree

variable (hcanon : here.Canonical) (hcanon' : there.Canonical)

include hcanon in
theorem eq_left (h : Mirror ρ here there t u) (h' : Mirror ρ here there t' u) : t = t' :=
  hcanon.eq_of_tree_eq h.owns h'.owns (Tree.rename_injective (h.tree.symm.trans h'.tree))

include hcanon' in
theorem eq_right (h : Mirror ρ here there t u) (h' : Mirror ρ here there t u') : u = u' :=
  hcanon'.eq_of_tree_eq h.image h'.image (h.tree.trans h'.tree.symm)

include hcanon hcanon'

/-- **Mirrored nodes are the same exactly if their images are.** -/
theorem id_eq_iff (h : Mirror ρ here there t u) (h' : Mirror ρ here there t' u') : t.id = t'.id ↔ u.id = u'.id := by
  constructor
  · intro hid
    obtain rfl := h.owns.eq_of_id_eq h'.owns hid
    rw [h.eq_right hcanon' h']
  · intro hid
    obtain rfl := h.image.eq_of_id_eq h'.image hid
    rw [h.eq_left hcanon h']

/-- Mirrored nodes agree at the root and have mirrored children. -/
theorem twins (h : Mirror ρ here there t u) : Term.Twins ρ (Mirror ρ here there) t u := by
  have hshape : u.shape.map Term.tree = ((t.shape.map Term.tree).map (Tree.rename ρ)).rename ρ := by
    have htree := h.tree
    rw [Term.tree_eq_ofShape t, Term.tree_eq_ofShape u, Tree.rename_ofShape] at htree
    exact Tree.ofShape_injective htree
  exact (Term.Twins.of_shape_map hshape).mono fun c hc c' hc' htree =>
    ⟨hcanon.owns_child h.owns hc, hcanon'.owns_child h.image hc', htree⟩

theorem children (h : Mirror ρ here there t u) : List.Forall₂ (Mirror ρ here there) t.children u.children :=
  (h.twins hcanon hcanon').children

end Store.Mirror

end TermGraph
