import TermGraph.Tree

/-!
# Bound variables of trees

Shifting, substitution and contraction as plain functions on trees: they descend once, count the binders
on the way, and change a bound variable by its index, its scope and that count. Nothing is skipped or
remembered.

Indices saturate at `Index.last`, so a walk on nodes cannot tell the last index from those beyond it. A
variable that is met below that many binders counts as bound and is left alone.
-/

namespace TermGraph.Tree

variable {ν μ : Type}

mutual

/-- The tree with every bound variable replaced, by the number of binders above it. -/
def mapBound (f : Nat → ν → Tree μ) (depth : Nat) : Tree ν → Tree μ
  | .var name => .var name
  | .const value => .const value
  | .fn symbol args => .fn symbol (mapBoundAll f depth args)
  | .app function argument => .app (mapBound f depth function) (mapBound f depth argument)
  | .lambda body => .lambda (mapBound f (depth + 1) body)
  | .bound slot => f depth slot

/-- Each of the trees with every bound variable replaced. -/
def mapBoundAll (f : Nat → ν → Tree μ) (depth : Nat) : List (Tree ν) → List (Tree μ)
  | [] => []
  | t :: ts => mapBound f depth t :: mapBoundAll f depth ts

end

theorem mapBoundAll_eq_map (f : Nat → ν → Tree μ) (depth : Nat) (ts : List (Tree ν)) :
    mapBoundAll f depth ts = ts.map (mapBound f depth) := by
  induction ts with
  | nil => rfl
  | cons t ts ih => rw [mapBoundAll, List.map_cons, ih]

/-- What a bound variable below `depth` binders becomes when `delta` is added to the free indices of
`scope`. -/
def shiftSlot (scope : Nat) (delta : Int) (depth : Nat) (slot : Slot) : Tree Slot :=
  if slot.scope = scope ∧ depth ≤ slot.index.val ∧ depth < Index.last.val then
    .bound ⟨slot.index.move delta, scope⟩
  else .bound slot

/-- Adds `delta` to the indices of `scope` that are free below `depth` binders. -/
def shift (scope : Nat) (delta : Int) (depth : Nat) : Tree Slot → Tree Slot :=
  mapBound (shiftSlot scope delta) depth

/-- The tree as it is seen from below `n` more binders of the scope. -/
def raise (scope : Nat) (n : Nat) : Tree Slot → Tree Slot := shift scope n 0

/-- What a bound variable below `depth` binders becomes when `replacement` takes the place of the index
`target` of `scope`: the replacement is seen from below the binders passed since, which are binders of
the scope `own`. -/
def substituteSlot (own scope target : Nat) (replacement : Tree Slot) (depth : Nat) (slot : Slot) :
    Tree Slot :=
  if slot.scope = scope ∧ slot.index.val = depth ∧ depth < Index.last.val then
    raise own (depth - target) replacement
  else .bound slot

/-- Puts `replacement` in the place of the index `target` of `scope`. -/
def substitute (own scope target : Nat) (replacement : Tree Slot) : Tree Slot → Tree Slot :=
  mapBound (substituteSlot own scope target replacement) target

/-- The contraction of the lambda around `body` with `argument`, by the binders of `own`. -/
def contract (own : Nat) (body argument : Tree Slot) : Tree Slot :=
  shift own (-1) 0 (substitute own own 0 (shift own 1 0 argument) body)

/-! ## Laws -/

mutual

/-- Replacing bound variables twice is replacing them once by what both do. -/
theorem mapBound_mapBound {κ : Type} {f : Nat → ν → Tree μ} {g : Nat → κ → Tree ν}
    {k : Nat → κ → Tree μ} (h : ∀ depth slot, (g depth slot).mapBound f depth = k depth slot) :
    ∀ (t : Tree κ) (depth : Nat), (t.mapBound g depth).mapBound f depth = t.mapBound k depth
  | .var _, _ | .const _, _ => rfl
  | .bound slot, depth => h depth slot
  | .fn _ args, depth => congrArg _ (mapBoundAll_mapBoundAll h args depth)
  | .app function argument, depth => by
    simp only [mapBound, mapBound_mapBound h function depth, mapBound_mapBound h argument depth]
  | .lambda body, depth => congrArg _ (mapBound_mapBound h body (depth + 1))

theorem mapBoundAll_mapBoundAll {κ : Type} {f : Nat → ν → Tree μ} {g : Nat → κ → Tree ν}
    {k : Nat → κ → Tree μ} (h : ∀ depth slot, (g depth slot).mapBound f depth = k depth slot) :
    ∀ (ts : List (Tree κ)) (depth : Nat),
      mapBoundAll f depth (mapBoundAll g depth ts) = mapBoundAll k depth ts
  | [], _ => rfl
  | t :: ts, depth => by
    simp only [mapBoundAll, mapBound_mapBound h t depth, mapBoundAll_mapBoundAll h ts depth]

end

mutual

/-- Replacing every bound variable by itself. -/
theorem mapBound_bound {f : Nat → ν → Tree ν} (h : ∀ depth slot, f depth slot = .bound slot) :
    ∀ (t : Tree ν) (depth : Nat), t.mapBound f depth = t
  | .var _, _ | .const _, _ => rfl
  | .bound slot, depth => h depth slot
  | .fn _ args, depth => congrArg _ (mapBoundAll_bound h args depth)
  | .app function argument, depth => by
    simp only [mapBound, mapBound_bound h function depth, mapBound_bound h argument depth]
  | .lambda body, depth => congrArg _ (mapBound_bound h body (depth + 1))

theorem mapBoundAll_bound {f : Nat → ν → Tree ν} (h : ∀ depth slot, f depth slot = .bound slot) :
    ∀ (ts : List (Tree ν)) (depth : Nat), mapBoundAll f depth ts = ts
  | [], _ => rfl
  | t :: ts, depth => by simp only [mapBoundAll, mapBound_bound h t depth, mapBoundAll_bound h ts depth]

end

@[simp] theorem shift_zero (scope depth : Nat) (t : Tree Slot) : t.shift scope 0 depth = t := by
  refine mapBound_bound (fun d slot => ?_) t depth
  unfold shiftSlot
  split
  · next h => rw [Index.move_zero, ← h.1]
  · rfl

@[simp] theorem raise_zero (scope : Nat) (t : Tree Slot) : t.raise scope 0 = t := shift_zero scope 0 t

/-- Raising one binder at a time. -/
theorem shift_one_raise (scope n : Nat) (t : Tree Slot) :
    (t.raise scope n).shift scope 1 0 = t.raise scope (n + 1) := by
  refine mapBound_mapBound (fun depth slot => ?_) t 0
  unfold shiftSlot
  by_cases h : slot.scope = scope ∧ depth ≤ slot.index.val ∧ depth < Index.last.val
  · have hd : depth ≤ (slot.index.move n).val := by
      obtain ⟨-, h1, h2⟩ := h
      simp only [Index.val_move, Index.val_last] at *
      omega
    rw [if_pos h, if_pos h, mapBound, if_pos ⟨rfl, hd, h.2.2⟩]
    congr 2
    ext
    simp only [Index.val_move]
    omega
  · rw [if_neg h, if_neg h, mapBound, if_neg h]

end TermGraph.Tree
