import Mathlib.Logic.Equiv.Basic
import TermGraph.Proofs.Tree.Filling

/-!
# Renaming scopes

Scopes are compared and never computed with. So whatever is done to the bound variables of a tree may be done before or
after all scopes are renamed. Saturation makes no difference to that, since indices stay what they are.

## Main statements

* `Tree.mapBound_rename` — **bound variables may be changed before or after scopes are renamed**
* `Tree.contract_rename`, `Tree.adopted_rename` — contraction and copying, in particular
-/

namespace TermGraph

variable {ρ : Equiv.Perm Nat} {scope : Nat} {t u : Tree Slot}

/-- The bound variable, in the renamed scope. -/
def Slot.rename (ρ : Equiv.Perm Nat) (slot : Slot) : Slot := ⟨slot.index, ρ slot.scope⟩

/-- The level, with the scope renamed if it is a bound variable. -/
def Shape.rename {α : Type} (ρ : Equiv.Perm Nat) : Shape α → Shape α
  | .bound index scope => .bound index (ρ scope)
  | shape => shape

namespace Tree

/-- The tree with all scopes renamed. -/
def rename (ρ : Equiv.Perm Nat) (t : Tree Slot) : Tree Slot := t.mapBound (fun _ slot => .bound (slot.rename ρ)) 0

/-- Renaming does not count binders. -/
theorem rename_eq (ρ : Equiv.Perm Nat) (t : Tree Slot) (depth : Nat) :
    t.rename ρ = t.mapBound (fun _ slot => .bound (slot.rename ρ)) depth :=
  (mapBound_add (f := fun _ (slot : Slot) => bound (slot.rename ρ)) (k := depth) (t := t) 0).symm

/-- **Bound variables may be changed before or after scopes are renamed.** -/
theorem mapBound_rename {f g : Nat → Slot → Tree Slot} (h : ∀ d slot, (f d slot).rename ρ = g d (slot.rename ρ))
    (t : Tree Slot) (depth : Nat) : (t.mapBound f depth).rename ρ = (t.rename ρ).mapBound g depth := by
  have hafter : (t.mapBound f depth).rename ρ = t.mapBound (fun d slot => (f d slot).rename ρ) depth := by
    rw [rename_eq ρ _ depth]
    exact mapBound_mapBound (fun d slot => (rename_eq ρ (f d slot) d).symm) t depth
  rw [hafter, rename_eq ρ t depth, mapBound_mapBound (k := fun d slot => (f d slot).rename ρ)]
  exact fun d slot => (h d slot).symm

theorem rename_rename_symm (ρ : Equiv.Perm Nat) (t : Tree Slot) : (t.rename ρ).rename ρ.symm = t := by
  refine (mapBound_mapBound (k := fun _ => .bound) (fun d slot => ?_) t 0).trans (mapBound_bound (fun _ _ => rfl) t 0)
  simp [mapBound, Slot.rename]

/-- Renaming tells trees apart. -/
theorem rename_injective (h : t.rename ρ = u.rename ρ) : t = u := by
  rw [← rename_rename_symm ρ t, h, rename_rename_symm]

/-- The scopes that the tree counts binders of are not renamed. -/
def Spared (ρ : Equiv.Perm Nat) (t : Tree Slot) : Prop := t.Every (fun _ slot => ρ slot.scope = slot.scope) 0

end Tree

/-- What holds of all bound variables of a term holds of those of its children. -/
theorem Term.every_child {p : Slot → Prop} {q c : Term} (h : q.tree.Every (fun _ => p) 0) (hc : c ∈ q.children) :
    c.tree.Every (fun _ => p) 0 := by
  cases q with
  | var | const | bound => cases hc
  | fn stamp symbol args =>
    rw [Term.tree, Term.trees_eq_map] at h
    exact Tree.everyAll_iff.mp h _ (List.mem_map_of_mem hc)
  | app stamp f a =>
    rcases List.mem_cons.mp hc with rfl | hc
    · exact h.1
    · rw [List.mem_singleton.mp hc]
      exact h.2
  | lambda stamp body =>
    rw [List.mem_singleton.mp hc]
    exact Tree.every_depth.mp h

/-! ## What is done with trees -/

namespace Tree

@[simp] theorem rename_ofShape (s : Shape (Tree Slot)) :
    (ofShape s).rename ρ = ofShape ((s.map (Tree.rename ρ)).rename ρ) := by
  cases s with
  | fn _ args => exact congrArg _ (mapBoundAll_eq_map _ 0 args)
  | lambda body => exact congrArg _ (rename_eq ρ body 1).symm
  | _ => rfl

theorem shiftSlot_rename (delta : Int) (depth : Nat) (slot : Slot) :
    (shiftSlot scope delta depth slot).rename ρ = shiftSlot (ρ scope) delta depth (slot.rename ρ) := by
  simp only [shiftSlot, Slot.rename, EmbeddingLike.apply_eq_iff_eq]
  split <;> rfl

theorem shift_rename (scope : Nat) (delta : Int) (depth : Nat) (t : Tree Slot) :
    (t.shift scope delta depth).rename ρ = (t.rename ρ).shift (ρ scope) delta depth :=
  mapBound_rename (shiftSlot_rename delta) t depth

theorem raise_rename (scope n : Nat) (t : Tree Slot) : (t.raise scope n).rename ρ = (t.rename ρ).raise (ρ scope) n :=
  shift_rename scope n 0 t

theorem substitute_rename (own scope target : Nat) (u t : Tree Slot) :
    (substitute own scope target u t).rename ρ = substitute (ρ own) (ρ scope) target (u.rename ρ) (t.rename ρ) := by
  refine mapBound_rename (fun depth slot => ?_) t target
  simp only [substituteSlot, Slot.rename, EmbeddingLike.apply_eq_iff_eq, ← raise_rename]
  split <;> rfl

/-- **Contraction may come before or after scopes are renamed.** -/
theorem contract_rename (own : Nat) (body argument : Tree Slot) :
    (contract own body argument).rename ρ = contract (ρ own) (body.rename ρ) (argument.rename ρ) := by
  rw [contract, shift_rename, substitute_rename, shift_rename, contract]

theorem rebind_rename (own scope : Nat) (body : Tree Slot) :
    (rebind own scope body).rename ρ = rebind (ρ own) (ρ scope) (body.rename ρ) := by
  rw [rebind, rebind, ← shift_rename]
  refine congrArg lambda ?_
  rw [← rename_eq ρ _ 1, substitute_rename]
  rfl

/-- **One level may be copied before or after scopes are renamed.** -/
theorem adopted_rename (own scope : Nat) (s : Shape (Tree Slot)) :
    (adopted own scope s).rename ρ = adopted (ρ own) (ρ scope) ((s.map (Tree.rename ρ)).rename ρ) := by
  cases s with
  | lambda body =>
    simp only [adopted, Shape.map, Shape.rename, EmbeddingLike.apply_eq_iff_eq]
    split
    · exact rename_ofShape (.lambda body)
    · exact rebind_rename own scope body
  | var x => rfl
  | const a => rfl
  | fn f args => exact rename_ofShape (.fn f args)
  | app f a => rfl
  | bound index scope => rfl

end Tree

end TermGraph
