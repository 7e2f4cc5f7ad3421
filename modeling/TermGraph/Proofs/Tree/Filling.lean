import TermGraph.Proofs.Tree.Matching

/-!
# Filling in below binders

A term that is copied into another store has its lambdas bound anew, one at a time and from the inside outwards:
each time the body moves below a new binder and its variable is replaced. `Tree.fill` says what comes of
that in one descent which counts the binders on the way. A variable that was bound by a lambda of the term counts
the binders of the new store and keeps its index; whatever stands for a named variable is seen from below the
binders around it; and indices that were free and counted the binders of the new store already are raised
likewise.

## Main statements

* `Tree.mapBound_rebindSlot_fill` — binding one more lambda anew
* `Tree.instantiate_eq_fill` — **binding all lambdas anew, in one descent**
-/

namespace TermGraph.Tree

variable {ν μ : Type}

/-- What passes from the children of a tree to the tree holds of all trees. -/
theorem induction {motive : Tree ν → Prop} (var : ∀ x, motive (.var x)) (const : ∀ a, motive (.const a))
    (fn : ∀ f args, (∀ t ∈ args, motive t) → motive (.fn f args))
    (app : ∀ f a, motive f → motive a → motive (.app f a))
    (lambda : ∀ body, motive body → motive (.lambda body)) (bound : ∀ slot, motive (.bound slot)) :
    ∀ t, motive t :=
  @Tree.rec ν motive (fun ts => ∀ t ∈ ts, motive t) var const fn app lambda bound
    (fun _ h => absurd h List.not_mem_nil) fun t ts ht hts u hu => by
      rcases List.mem_cons.mp hu with rfl | hu
      · exact ht
      · exact hts u hu

/-! ## What holds of all bound variables -/

mutual

/-- Every bound variable has the property, which may depend on the number of binders above it. -/
def Every (P : Nat → ν → Prop) (depth : Nat) : Tree ν → Prop
  | .var _ => True
  | .const _ => True
  | .fn _ args => EveryAll P depth args
  | .app function argument => Every P depth function ∧ Every P depth argument
  | .lambda body => Every P (depth + 1) body
  | .bound slot => P depth slot

/-- Every bound variable of each of the trees has the property. -/
def EveryAll (P : Nat → ν → Prop) (depth : Nat) : List (Tree ν) → Prop
  | [] => True
  | t :: ts => Every P depth t ∧ EveryAll P depth ts

end

theorem everyAll_iff {P : Nat → ν → Prop} {depth : Nat} {ts : List (Tree ν)} :
    EveryAll P depth ts ↔ ∀ t ∈ ts, Every P depth t := by
  induction ts with
  | nil => simp [EveryAll]
  | cons t ts ih => simp [EveryAll, ih]

mutual

/-- Whether every bound variable has the property can be found out. -/
def decideEvery (P : Nat → ν → Prop) [∀ depth slot, Decidable (P depth slot)] (depth : Nat) :
    (t : Tree ν) → Decidable (Every P depth t)
  | .var _ | .const _ => isTrue trivial
  | .fn _ args => decideEveryAll P depth args
  | .app function argument =>
    match decideEvery P depth function, decideEvery P depth argument with
    | isTrue h, isTrue h' => isTrue ⟨h, h'⟩
    | isFalse h, _ => isFalse fun hc => h hc.1
    | _, isFalse h => isFalse fun hc => h hc.2
  | .lambda body => decideEvery P (depth + 1) body
  | .bound slot => inferInstanceAs (Decidable (P depth slot))

/-- Whether every bound variable of each tree has the property can be found out. -/
def decideEveryAll (P : Nat → ν → Prop) [∀ depth slot, Decidable (P depth slot)] (depth : Nat) :
    (ts : List (Tree ν)) → Decidable (EveryAll P depth ts)
  | [] => isTrue trivial
  | t :: ts =>
    match decideEvery P depth t, decideEveryAll P depth ts with
    | isTrue h, isTrue h' => isTrue ⟨h, h'⟩
    | isFalse h, _ => isFalse fun hc => h hc.1
    | _, isFalse h => isFalse fun hc => h hc.2

end

instance (P : Nat → ν → Prop) [∀ depth slot, Decidable (P depth slot)] (depth : Nat) (t : Tree ν) :
    Decidable (Every P depth t) := decideEvery P depth t

/-- The property may be weakened. -/
theorem Every.mono {P Q : Nat → ν → Prop} (hPQ : ∀ depth slot, P depth slot → Q depth slot) {t : Tree ν}
    {depth : Nat} (h : Every P depth t) : Every Q depth t := by
  induction t using Tree.induction generalizing depth with
  | var _ => trivial
  | const _ => trivial
  | fn f args ih => exact everyAll_iff.mpr fun t ht => ih t ht (everyAll_iff.mp h t ht)
  | app f a ihf iha => exact ⟨ihf h.1, iha h.2⟩
  | lambda body ih => exact ih h
  | bound slot => exact hPQ depth slot h

/-- Binders that are above all of the tree may be counted with the property. -/
theorem every_add {P : Nat → ν → Prop} {k : Nat} {t : Tree ν} (depth : Nat) :
    Every P (k + depth) t ↔ Every (fun d => P (k + d)) depth t := by
  induction t using Tree.induction generalizing depth with
  | var _ => exact Iff.rfl
  | const _ => exact Iff.rfl
  | fn f args ih => simp only [Every, everyAll_iff]; exact forall₂_congr fun t ht => ih t ht depth
  | app f a ihf iha => simp only [Every, ihf, iha]
  | lambda body ih => exact ih (depth + 1)
  | bound slot => exact Iff.rfl

/-- A property that does not count binders holds at any depth if it holds at one. -/
theorem every_depth {p : ν → Prop} {depth : Nat} {t : Tree ν} :
    Every (fun _ => p) depth t ↔ Every (fun _ => p) 0 t := every_add (k := depth) 0

/-- Replacing bound variables tells apart what replaces the variables that the tree has. -/
theorem mapBound_eq_iff {f g : Nat → ν → Tree μ} {t : Tree ν} {depth : Nat} :
    t.mapBound f depth = t.mapBound g depth ↔ t.Every (fun d slot => f d slot = g d slot) depth := by
  induction t using Tree.induction generalizing depth with
  | var _ => exact iff_of_true rfl trivial
  | const _ => exact iff_of_true rfl trivial
  | fn s args ih =>
    simp only [mapBound, mapBoundAll_eq_map, fn.injEq, true_and, Every, everyAll_iff, List.map_inj_left]
    exact forall₂_congr fun t ht => ih t ht
  | app s a ihs iha => simp only [mapBound, app.injEq, ihs, iha, Every]
  | lambda body ih => simp only [mapBound, lambda.injEq, ih, Every]
  | bound slot => exact Iff.rfl

/-- What replaces the bound variables matters only where the tree has any. -/
theorem mapBound_congr {P : Nat → ν → Prop} {f g : Nat → ν → Tree μ}
    (hfg : ∀ depth slot, P depth slot → f depth slot = g depth slot) {t : Tree ν} {depth : Nat}
    (h : Every P depth t) : t.mapBound f depth = t.mapBound g depth :=
  mapBound_eq_iff.mpr (h.mono hfg)

/-- Binders that are above all of the tree may be counted with the replacement. -/
theorem mapBound_add {f : Nat → ν → Tree μ} {k : Nat} {t : Tree ν} (depth : Nat) :
    t.mapBound f (k + depth) = t.mapBound (fun d => f (k + d)) depth := by
  induction t using Tree.induction generalizing depth with
  | var _ => rfl
  | const _ => rfl
  | fn s args ih =>
    simp only [mapBound, mapBoundAll_eq_map]
    exact congrArg _ (List.map_congr_left fun t ht => ih t ht depth)
  | app s a ihs iha => simp only [mapBound, ihs, iha]
  | lambda body ih => exact congrArg _ (ih (depth + 1))
  | bound slot => rfl

/-- What holds of all bound variables once they have been replaced. -/
theorem every_mapBound_iff {Q : Nat → μ → Prop} {f : Nat → ν → Tree μ} {t : Tree ν} {depth : Nat} :
    Every Q depth (t.mapBound f depth) ↔ Every (fun d slot => Every Q d (f d slot)) depth t := by
  induction t using Tree.induction generalizing depth with
  | var _ => exact Iff.rfl
  | const _ => exact Iff.rfl
  | fn s args ih =>
    simp only [mapBound, Every, mapBoundAll_eq_map, everyAll_iff, List.forall_mem_map]
    exact forall₂_congr fun t ht => ih t ht
  | app s a ihs iha => simp only [mapBound, Every, ihs, iha]
  | lambda body ih => exact ih
  | bound slot => exact Iff.rfl

/-- What holds of the replaced bound variables. -/
theorem every_mapBound {P : Nat → ν → Prop} {Q : Nat → μ → Prop} {f : Nat → ν → Tree μ}
    (hf : ∀ depth slot, P depth slot → Every Q depth (f depth slot)) {t : Tree ν} {depth : Nat}
    (h : Every P depth t) : Every Q depth (t.mapBound f depth) :=
  every_mapBound_iff.mpr (h.mono hf)

/-! ## Binding lambdas anew -/

end Tree

/-- What a bound variable below `depth` lambdas becomes when the lambdas, whose variables counted the binders of
`scope`, are bound anew by binders of `own`. The last index belongs to no lambda, since it cannot be told from those
beyond it. -/
def Slot.carried (own scope depth : Nat) (slot : Slot) : Slot :=
  if slot.scope = scope then
    if slot.index.val < depth ∧ slot.index ≠ Index.last then ⟨slot.index, own⟩ else slot
  else if slot.scope = own then ⟨slot.index.move depth, own⟩ else slot

/-- No lambda that is bound anew takes the bound variable, whose scope is another unless it has the last index. -/
def Slot.Spared (scope : Nat) (slot : Slot) : Prop := slot.scope = scope → slot.index = Index.last

/-- What named variables stand for, each of them. -/
abbrev Substitution := String → Tree Slot

/-- Variables that stand for nothing stand for themselves. -/
def Assignment.total (σ : Assignment) : Substitution := fun x => (σ x).getD (.var x)

namespace Tree

mutual

/-- The tree below `depth` lambdas with its variables replaced by what they stand for, which is seen from below the
lambdas, and with all lambdas bound anew. -/
def fill (own scope : Nat) (σ : Substitution) (depth : Nat) : Tree Slot → Tree Slot
  | .var x => raise own depth (σ x)
  | .const a => .const a
  | .fn f args => .fn f (fillAll own scope σ depth args)
  | .app f a => .app (fill own scope σ depth f) (fill own scope σ depth a)
  | .lambda body => .lambda (fill own scope σ (depth + 1) body)
  | .bound slot => .bound (slot.carried own scope depth)

/-- Each of the trees, filled in. -/
def fillAll (own scope : Nat) (σ : Substitution) (depth : Nat) : List (Tree Slot) → List (Tree Slot)
  | [] => []
  | t :: ts => fill own scope σ depth t :: fillAll own scope σ depth ts

end

theorem fillAll_eq_map (own scope : Nat) (σ : Substitution) (depth : Nat) (ts : List (Tree Slot)) :
    fillAll own scope σ depth ts = ts.map (fill own scope σ depth) := by
  induction ts with
  | nil => rfl
  | cons t ts ih => rw [fillAll, List.map_cons, ih]

/-- Where variables stand for themselves, only bound variables change. -/
theorem fill_var (own scope : Nat) (t : Tree Slot) (depth : Nat) :
    t.fill own scope .var depth = t.mapBound (fun d slot => .bound (slot.carried own scope d)) depth := by
  induction t using Tree.induction generalizing depth with
  | var _ => rfl
  | const _ => rfl
  | fn f args ih =>
    simp only [fill, mapBound, fillAll_eq_map, mapBoundAll_eq_map]
    exact congrArg _ (List.map_congr_left fun t ht => ih t ht depth)
  | app f a ihf iha => simp only [fill, mapBound, ihf, iha]
  | lambda body ih => exact congrArg _ (ih (depth + 1))
  | bound slot => rfl

/-- What a bound variable below `depth` lambdas becomes when one more lambda around them is bound anew: free indices
of `own` make room for the new binder, and the variable of the old one becomes its variable. -/
def rebindSlot (own scope depth : Nat) (slot : Slot) : Slot :=
  if slot.scope = own then
    if depth ≤ slot.index.val ∧ depth < Index.last.val then ⟨slot.index.move 1, own⟩ else slot
  else if slot.scope = scope ∧ slot.index.val = depth ∧ depth < Index.last.val then ⟨slot.index, own⟩ else slot

variable {own scope : Nat}

theorem rebind_eq (hne : scope ≠ own) (body : Tree Slot) :
    rebind own scope body = .lambda (body.mapBound (fun d slot => .bound (rebindSlot own scope d slot)) 0) := by
  refine congrArg Tree.lambda (mapBound_mapBound (fun depth slot => ?_) body 0)
  unfold shiftSlot rebindSlot
  by_cases hown : slot.scope = own
  · -- the replacement is for the other scope and leaves what was shifted alone
    rw [if_pos hown]
    simp only [hown, true_and]
    split
    · simp [mapBound, substituteSlot, hne.symm]
    · simp [mapBound, substituteSlot, hown, hne.symm]
  · simp only [hown, false_and, if_false, mapBound, substituteSlot, Index.val_zero, Nat.sub_zero]
    split
    · next h =>
      simp only [raise, shift, mapBound, shiftSlot, Index.val_zero, Nat.le_refl, Index.val_last, true_and]
      rw [if_pos (by omega)]
      congr 2
      ext
      simp only [Index.val_move, Index.val_zero]
      omega
    · rfl

/-- A free index makes room for one more binder; where there is no room, it is the last index already. -/
theorem rebindSlot_move {i : Index} {n depth : Nat} (h : depth ≤ i.val + n) :
    rebindSlot own scope depth ⟨i.move n, own⟩ = ⟨i.move (n + 1 : Nat), own⟩ := by
  rw [rebindSlot, if_pos rfl]
  by_cases hroom : depth ≤ (i.move n).val ∧ depth < Index.last.val
  · rw [if_pos hroom]
    congr 1
    ext
    simp only [Index.val_move]
    omega
  · rw [if_neg hroom]
    congr 1
    ext
    simp only [Index.val_move, Index.val_last] at hroom ⊢
    omega

/-- A bound variable that no lambda takes only makes room, and room for `depth` binders has been made. -/
theorem mapBound_rebindSlot_shiftSlot {slot : Slot} (hs : slot.Spared scope) (depth d : Nat) :
    (shiftSlot own depth d slot).mapBound (fun e s => .bound (rebindSlot own scope (depth + e) s)) d =
      shiftSlot own (depth + 1 : Nat) d slot := by
  unfold shiftSlot
  by_cases h : slot.scope = own ∧ d ≤ slot.index.val ∧ d < Index.last.val
  · have hd : depth + d ≤ slot.index.val + depth := by omega
    rw [if_pos h, if_pos h, mapBound, rebindSlot_move hd]
  · rw [if_neg h, if_neg h, mapBound, rebindSlot]
    by_cases hown : slot.scope = own
    · rw [if_pos hown, if_neg fun hd => h ⟨hown, by omega, by omega⟩]
    · rw [if_neg hown, if_neg]
      rintro ⟨hscope, he, hd⟩
      rw [hs hscope] at he
      omega

/-- Moving a tree below one more binder, where binders are above it already. -/
theorem mapBound_rebindSlot_raise {t : Tree Slot} (ht : t.Every (fun _ slot => slot.Spared scope) 0)
    (depth : Nat) :
    (t.raise own depth).mapBound (fun d slot => .bound (rebindSlot own scope d slot)) depth =
      t.raise own (depth + 1) := by
  have hadd := mapBound_add (f := fun d slot => .bound (rebindSlot own scope d slot)) (k := depth)
    (t := t.raise own depth) 0
  refine hadd.trans ((mapBound_mapBound (fun _ _ => rfl) t 0).trans (mapBound_congr ?_ ht))
  exact fun d slot hs => mapBound_rebindSlot_shiftSlot hs depth d

/-- One more lambda takes its variable and moves the free ones. -/
theorem rebindSlot_carried (hne : scope ≠ own) (slot : Slot) (depth : Nat) :
    rebindSlot own scope depth (slot.carried own scope depth) = slot.carried own scope (depth + 1) := by
  unfold Slot.carried
  by_cases hscope : slot.scope = scope
  · have hlast : slot.index = Index.last ↔ slot.index.val = Index.last.val := Fin.ext_iff
    have hown : slot.scope ≠ own := fun h => hne (hscope ▸ h)
    rw [if_pos hscope, if_pos hscope]
    by_cases hin : slot.index.val < depth ∧ slot.index ≠ Index.last
    · -- what a lambda further in has taken is too small to make room
      rw [if_pos hin, if_pos ⟨by omega, hin.2⟩, rebindSlot, if_pos rfl, if_neg (by dsimp only; omega)]
    · rw [if_neg hin, rebindSlot, if_neg hown]
      refine if_congr ?_ rfl rfl
      have hle := Nat.le_of_lt_succ slot.index.isLt
      simp only [Index.val_last] at hlast ⊢
      constructor
      · rintro ⟨-, he, hd⟩
        exact ⟨by omega, fun hl => absurd (hlast.mp hl) (by omega)⟩
      · rintro ⟨hd, hl⟩
        have := hlast.not.mp hl
        by_cases hlt : slot.index.val < depth
        · exact absurd ⟨hlt, hl⟩ hin
        · exact ⟨hscope, by omega, by omega⟩
  · rw [if_neg hscope, if_neg hscope]
    by_cases hown : slot.scope = own
    · rw [if_pos hown, if_pos hown, rebindSlot_move (Nat.le_add_left _ _)]
    · rw [if_neg hown, if_neg hown, rebindSlot, if_neg hown, if_neg fun h => hscope h.1]

/-- No lambda, nothing to bind. -/
theorem carried_zero (slot : Slot) : slot.carried own scope 0 = slot := by
  unfold Slot.carried
  split
  · rw [if_neg fun h => absurd h.1 (Nat.not_lt_zero _)]
  · split
    · next h => rw [Int.natCast_zero, Index.move_zero, ← h]
    · rfl

/-- **Binding one more lambda anew.** -/
theorem mapBound_rebindSlot_fill (hne : scope ≠ own) {σ : Substitution}
    (hσ : ∀ x, (σ x).Every (fun _ slot => slot.Spared scope) 0) (t : Tree Slot) (depth : Nat) :
    (t.fill own scope σ depth).mapBound (fun d slot => .bound (rebindSlot own scope d slot)) depth =
      t.fill own scope σ (depth + 1) := by
  induction t using Tree.induction generalizing depth with
  | var x => exact mapBound_rebindSlot_raise (hσ x) depth
  | const _ => rfl
  | fn f args ih =>
    simp only [fill, mapBound, fillAll_eq_map, mapBoundAll_eq_map, List.map_map]
    exact congrArg _ (List.map_congr_left fun t ht => ih t ht depth)
  | app f a ihf iha => simp only [fill, mapBound, ihf, iha]
  | lambda body ih => exact congrArg _ (ih (depth + 1))
  | bound slot => exact congrArg Tree.bound (rebindSlot_carried hne slot depth)

/-- **Binding all lambdas anew, in one descent.** -/
theorem instantiate_eq_fill (hne : scope ≠ own) {σ : Assignment}
    (hσ : ∀ x t, σ x = some t → t.Every (fun _ slot => slot.Spared scope) 0) (t : Tree Slot) :
    t.instantiate own scope σ = t.fill own scope σ.total 0 := by
  have htotal : ∀ x, (σ.total x).Every (fun _ slot => slot.Spared scope) 0 := by
    intro x
    unfold Assignment.total
    cases hx : σ x with
    | none => trivial
    | some u => exact hσ x u hx
  induction t using Tree.induction with
  | var x => rw [instantiate, fill, raise_zero]; rfl
  | const _ => rfl
  | fn f args ih =>
    simp only [instantiate, fill, instantiateAll_eq_map, fillAll_eq_map]
    exact congrArg _ (List.map_congr_left ih)
  | app f a ihf iha => simp only [instantiate, fill, ihf, iha]
  | lambda body ih =>
    rw [instantiate, rebind_eq hne, ih, mapBound_rebindSlot_fill hne htotal]
    rfl
  | bound slot => exact congrArg Tree.bound (carried_zero slot).symm

end TermGraph.Tree
