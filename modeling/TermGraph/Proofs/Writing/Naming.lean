import TermGraph.Proofs.Writing.Trees

/-!
# Names for bound variables

The input form shows a variable that is bound within the term by the name of its binder, and nothing else tells it from
a variable of that name. Names go by the number of binders above, so binders around the same place have different names,
and as long as no variable below them is called like one of them, no two trees are named alike.

## Main statements

* `Term.toList_text`, `Term.toList_deBruijn` — the text of a node
* `Tree.eq_of_named_eq` — **naming tells trees apart in which no variable is called like a binder around it**
-/

namespace TermGraph

namespace Tree

variable {ν : Type} {home depth : Nat} {slot slot' : Slot} {s t : Tree Slot}

/-! ## Naming -/

/-- A bound variable below `depth` binders, under the name of its binder if that is one of them. -/
def namedSlot (home depth : Nat) (slot : Slot) : Tree Slot :=
  if slot.scope = home ∧ slot.index.val < depth then .var (binderName (depth - 1 - slot.index.val)) else .bound slot

/-- The tree with a variable in the place of each variable that is bound within it, under the name of the binder. -/
def named (home : Nat) (t : Tree Slot) : Tree Slot := t.mapBound (namedSlot home) 0

mutual

/-- No variable is called like a binder around it, where there are `depth` binders around the tree. -/
def unclaimed (depth : Nat) : Tree ν → Bool
  | .var name => (List.range depth).all fun d => name != binderName d
  | .const _ | .bound _ => true
  | .fn _ args => unclaimedAll depth args
  | .app function argument => unclaimed depth function && unclaimed depth argument
  | .lambda body => unclaimed (depth + 1) body

/-- No variable of any of the trees is called like a binder around it. -/
def unclaimedAll (depth : Nat) : List (Tree ν) → Bool
  | [] => true
  | t :: ts => unclaimed depth t && unclaimedAll depth ts

end

theorem unclaimedAll_iff {ts : List (Tree ν)} :
    unclaimedAll depth ts = true ↔ ∀ t ∈ ts, t.unclaimed depth = true := by
  induction ts with
  | nil => simp [unclaimedAll]
  | cons t ts ih => simp [unclaimedAll, ih]

/-! ## What is shown -/

/-- The input form shows a bound variable under its name. -/
theorem phrase_namedSlot (home depth : Nat) (slot : Slot) :
    (namedSlot home depth slot).phrase .input home =
      .word (Form.input.index depth slot.index home slot.scope).toList := by
  by_cases hbound : slot.scope = home ∧ slot.index.val < depth
  · simp only [namedSlot, if_pos hbound, phrase, Form.index]
  · simp only [namedSlot, if_neg hbound, phrase, Form.index, Nat.not_lt_zero, and_false, if_false]

theorem legible_namedSlot (home depth : Nat) (slot : Slot) : (namedSlot home depth slot).legible = true := by
  rw [namedSlot]
  split
  · exact isIdentifier_binderName _
  · rfl

/-- Naming takes away bound variables only. -/
theorem every_named {p : Slot → Prop} (h : t.Every (fun _ => p) 0) : (t.named home).Every (fun _ => p) 0 := by
  refine every_mapBound (fun depth slot hslot => ?_) h
  rw [namedSlot]
  split
  · trivial
  · exact hslot

/-! ## Trees that are named alike -/

/-- A bound variable keeps its slot or has the name of a binder around it. -/
theorem namedSlot_cases (home depth : Nat) (slot : Slot) :
    (∃ d < depth, namedSlot home depth slot = .var (binderName d)) ∨ namedSlot home depth slot = .bound slot := by
  by_cases hbound : slot.scope = home ∧ slot.index.val < depth
  · exact Or.inl ⟨depth - 1 - slot.index.val, by omega, if_pos hbound⟩
  · exact Or.inr (if_neg hbound)

/-- Binders around the same place have different names. -/
theorem namedSlot_injective (h : namedSlot home depth slot = namedSlot home depth slot') : slot = slot' := by
  by_cases hbound : slot.scope = home ∧ slot.index.val < depth <;>
    by_cases hbound' : slot'.scope = home ∧ slot'.index.val < depth
  · rw [namedSlot, namedSlot, if_pos hbound, if_pos hbound', var.injEq] at h
    have hname := binderName_injective h
    have hindex : slot.index = slot'.index := Fin.ext (by omega)
    have hscope : slot.scope = slot'.scope := hbound.1.trans hbound'.1.symm
    cases slot
    cases slot'
    rw [Slot.mk.injEq]
    exact ⟨hindex, hscope⟩
  · rw [namedSlot, namedSlot, if_pos hbound, if_neg hbound'] at h
    cases h
  · rw [namedSlot, namedSlot, if_neg hbound, if_pos hbound'] at h
    cases h
  · rw [namedSlot, namedSlot, if_neg hbound, if_neg hbound', bound.injEq] at h
    exact h

/-- What is named like a bound variable is one. -/
theorem eq_bound_of_mapBound_eq (ht : t.unclaimed depth = true)
    (h : t.mapBound (namedSlot home) depth = namedSlot home depth slot) : t = .bound slot := by
  -- only a named variable could be taken for a bound one, and it would have to have the name of a binder
  cases t with
  | bound slot' => rw [namedSlot_injective h]
  | var name =>
    rcases namedSlot_cases home depth slot with ⟨d, hd, hnamed⟩ | hkept
    · rw [mapBound, hnamed, var.injEq] at h
      simp only [unclaimed, List.all_eq_true, List.mem_range, bne_iff_ne] at ht
      exact absurd h (ht d hd)
    · rw [hkept] at h
      cases h
  | _ =>
    rcases namedSlot_cases home depth slot with ⟨d, -, hnamed⟩ | hkept
    · rw [hnamed] at h
      cases h
    · rw [hkept] at h
      cases h

theorem eq_of_mapBound_namedSlot_eq (hs : s.unclaimed depth = true) (ht : t.unclaimed depth = true)
    (h : s.mapBound (namedSlot home) depth = t.mapBound (namedSlot home) depth) : s = t := by
  induction s using Tree.induction generalizing t depth with
  | bound slot => exact (eq_bound_of_mapBound_eq ht h.symm).symm
  | var name =>
    cases t with
    | bound slot => exact eq_bound_of_mapBound_eq hs h
    | var name' => exact h
    | _ => cases h
  | const value =>
    cases t with
    | bound slot => exact eq_bound_of_mapBound_eq hs h
    | const value' => exact h
    | _ => cases h
  | fn symbol args ih =>
    cases t with
    | bound slot => exact eq_bound_of_mapBound_eq hs h
    | fn symbol' args' =>
      rw [unclaimed, unclaimedAll_iff] at hs ht
      rw [mapBound, mapBound, fn.injEq, mapBoundAll_eq_map, mapBoundAll_eq_map] at h
      have hargs : args = args' := list_eq_of_map_eq h.2 fun a ha b hb hab => ih a ha (hs a ha) (ht b hb) hab
      rw [h.1, hargs]
    | _ => cases h
  | app function argument ihf iha =>
    cases t with
    | bound slot => exact eq_bound_of_mapBound_eq hs h
    | app function' argument' =>
      rw [unclaimed, Bool.and_eq_true] at hs ht
      rw [mapBound, mapBound, app.injEq] at h
      rw [ihf hs.1 ht.1 h.1, iha hs.2 ht.2 h.2]
    | _ => cases h
  | lambda body ih =>
    cases t with
    | bound slot => exact eq_bound_of_mapBound_eq hs h
    | lambda body' =>
      have hbody : body = body' := ih hs ht (Tree.lambda.inj h)
      rw [hbody]
    | _ => cases h

/-- **Naming tells trees apart in which no variable is called like a binder around it.** -/
theorem eq_of_named_eq (hs : s.unclaimed 0 = true) (ht : t.unclaimed 0 = true) (h : s.named home = t.named home) :
    s = t := eq_of_mapBound_namedSlot_eq hs ht h

end Tree

/-! ## The text of a node -/

namespace Term

variable {store : Store} {t : Term}

/-- The input form of a node is that of its tree with bound variables under their names. -/
theorem toList_text (h : store.Canonical) (ht : store.Owns t) :
    t.text.toList =
      ((t.tree.named store.scope).phrase .input store.scope).text (fun d => (Form.input.binder d).toList) 0 :=
  toList_renderAt (Tree.phrase_namedSlot store.scope) (by decide) h rfl t ht 0

/-- The de Bruijn form of a node is that of its tree as it is. -/
theorem toList_deBruijn (h : store.Canonical) (ht : store.Owns t) :
    (t.render .deBruijn).toList =
      (t.tree.phrase .deBruijn store.scope).text (fun d => (Form.deBruijn.binder d).toList) 0 := by
  have hshown : ∀ (depth : Nat) (slot : Slot), (Tree.bound slot).phrase .deBruijn store.scope =
      .word (Form.deBruijn.index depth slot.index store.scope slot.scope).toList := fun _ _ => rfl
  rw [render, toList_renderAt hshown (by decide) h rfl t ht 0, Tree.mapBound_bound fun _ _ => rfl]

end Term

end TermGraph
