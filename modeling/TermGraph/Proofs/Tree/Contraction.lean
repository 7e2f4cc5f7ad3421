import TermGraph.Proofs.Tree.Filling

/-!
# Contraction and crossing

A redex may be contracted before or after it crosses into another store. Contracted first, its body moves out of the
binder that is gone: free indices of the body are lowered, and the argument is raised below the binders of the body.
Contracted afterwards, the indices that are free in it count another scope than the binder does, and none of them is
lowered or raised. So the two differ where something is free in the body beyond its own variable, or free in an
argument that moves below binders.

## Main statements

* `Tree.contract_fill` — contraction after crossing
* `Tree.contract_fill_eq_iff` — **when crossing and contraction may change places**
-/

namespace TermGraph.Tree

variable {here there : Nat} {body argument t : Tree Slot}

/-- Two properties of every bound variable are one. -/
theorem Every.and {ν : Type} {P Q : Nat → ν → Prop} {t : Tree ν} {depth : Nat} (hP : t.Every P depth)
    (hQ : t.Every Q depth) : t.Every (fun d slot => P d slot ∧ Q d slot) depth := by
  induction t using Tree.induction generalizing depth with
  | var _ => trivial
  | const _ => trivial
  | fn f args ih =>
    exact everyAll_iff.mpr fun t ht => ih t ht (everyAll_iff.mp hP t ht) (everyAll_iff.mp hQ t ht)
  | app f a ihf iha => exact ⟨ihf hP.1 hQ.1, iha hP.2 hQ.2⟩
  | lambda body ih => exact ih hP hQ
  | bound slot => exact ⟨hP, hQ⟩

/-- Every bound variable counts the binders of the scope. -/
def Counts (scope : Nat) (t : Tree Slot) : Prop := t.Every (fun _ slot => slot.scope = scope) 0

instance (scope : Nat) (t : Tree Slot) : Decidable (Counts scope t) := inferInstanceAs (Decidable (Every _ _ _))

/-- Every index belongs to a lambda of the tree. -/
def Covered (t : Tree Slot) : Prop := t.Every (fun depth slot => slot.index.val < depth) 0

instance (t : Tree Slot) : Decidable (Covered t) := inferInstanceAs (Decidable (Every _ _ _))

/-- No free index leaves the range when it is raised by `n`. -/
def Raisable (n : Nat) (t : Tree Slot) : Prop :=
  t.Every (fun depth slot => depth ≤ slot.index.val → slot.index.val + n < Index.last.val) 0

instance (n : Nat) (t : Tree Slot) : Decidable (Raisable n t) := inferInstanceAs (Decidable (Every _ _ _))

/-- No free index of the scope leaves the range when it is raised by `n`. -/
def Liftable (scope n : Nat) (t : Tree Slot) : Prop :=
  t.Every (fun depth slot => slot.scope = scope → depth ≤ slot.index.val → slot.index.val + n < Index.last.val) 0

instance (scope n : Nat) (t : Tree Slot) : Decidable (Liftable scope n t) := inferInstanceAs (Decidable (Every _ _ _))

theorem Raisable.liftable {n : Nat} (h : t.Raisable n) (scope : Nat) : t.Liftable scope n :=
  Every.mono (fun _ _ hslot _ hfree => hslot hfree) h

/-- Shifting leaves a tree alone in which every index of the scope is bound. -/
theorem shift_of_bound {scope : Nat} (delta : Int)
    (h : t.Every (fun depth slot => slot.scope = scope → slot.index.val < depth) 0) (depth : Nat) :
    t.shift scope delta depth = t := by
  have hfrom : t.Every (fun d slot => slot.scope = scope → slot.index.val < d) (depth + 0) :=
    (every_add 0).mpr (h.mono fun _ _ hslot hs => Nat.lt_add_left depth (hslot hs))
  refine (mapBound_congr (g := fun _ => Tree.bound) (fun d slot hslot => if_neg ?_) hfrom).trans
    (mapBound_bound (fun _ _ => rfl) t _)
  rintro ⟨hs, hge, -⟩
  exact absurd (hslot hs) (Nat.not_lt.mpr hge)

/-- Nothing is free in the new scope after crossing. -/
theorem bound_fill (hne : here ≠ there) (ht : t.Counts here) :
    (t.fill there here .var 0).Every (fun depth slot => slot.scope = there → slot.index.val < depth) 0 := by
  rw [fill_var]
  refine every_mapBound (fun depth slot hs => ?_) ht
  rw [Slot.carried, if_pos hs]
  split
  · next hin => exact fun _ => hin.1
  · exact fun hs' => absurd (hs.symm.trans hs') hne

/-- **Contraction after crossing**: the argument is put in place as it is, and what is free in the body stays. -/
theorem contract_fill (hne : here ≠ there) (hbody : body.Counts here) (hargument : argument.Counts here) :
    contract there (body.fill there here .var 1) (argument.fill there here .var 0) =
      body.mapBound (fun depth slot =>
        if slot.index.val = depth ∧ depth < Index.last.val then argument.fill there here .var 0
        else .bound (slot.carried there here (depth + 1))) 0 := by
  have hbound := bound_fill hne hargument
  have hcross : body.fill there here .var 1 =
      body.mapBound (fun depth slot => .bound (slot.carried there here (1 + depth))) 0 := by
    rw [fill_var]
    exact mapBound_add 0
  rw [contract, shift_of_bound 1 hbound, hcross, substitute, shift, mapBound_mapBound fun _ _ => rfl,
    mapBound_mapBound fun _ _ => rfl]
  refine mapBound_congr (fun depth slot hs => ?_) hbody
  rw [Nat.add_comm 1 depth, mapBound, substituteSlot]
  by_cases hvar : slot.index.val = depth ∧ depth < Index.last.val
  · -- the variable of the binder counts the new scope
    have hcarried : slot.carried there here (depth + 1) = ⟨slot.index, there⟩ := by
      have hlast : slot.index ≠ Index.last := fun h => by
        rw [← hvar.1, h] at hvar
        exact absurd hvar.2 (Nat.lt_irrefl _)
      rw [Slot.carried, if_pos hs, if_pos ⟨by omega, hlast⟩]
    rw [if_pos hvar, hcarried, if_pos ⟨rfl, hvar⟩, raise, shift_of_bound _ hbound]
    exact shift_of_bound (-1) hbound depth
  · rw [if_neg hvar]
    have hindex : (slot.carried there here (depth + 1)).index = slot.index := by
      rw [Slot.carried, if_pos hs]
      split <;> rfl
    rw [if_neg (fun h => hvar ⟨hindex ▸ h.2.1, h.2.2⟩), mapBound, shiftSlot, if_neg]
    rintro ⟨hthere, hge, hlt⟩
    rw [hindex] at hge
    refine hvar ⟨?_, hlt⟩
    rw [Slot.carried, if_pos hs] at hthere
    split at hthere
    · next hin => omega
    · exact absurd (hs.symm.trans hthere) hne

/-- Moving below one binder more and out of it again is no more than raising, as long as there is room. -/
theorem shift_raise_shift {scope n : Nat} (hroom : t.Liftable scope n) :
    ((t.shift scope 1 0).raise scope n).shift scope (-1) n = t.raise scope n := by
  have hdown : ∀ s : Tree Slot, s.shift scope (-1) n = s.mapBound (fun d => shiftSlot scope (-1) (n + d)) 0 :=
    fun s => mapBound_add 0
  rw [hdown]
  unfold raise shift
  rw [mapBound_mapBound fun _ _ => rfl, mapBound_mapBound fun _ _ => rfl]
  refine mapBound_congr (fun depth slot hslot => ?_) hroom
  by_cases hfree : slot.scope = scope ∧ depth ≤ slot.index.val ∧ depth < Index.last.val
  · have hlt := hslot hfree.1 hfree.2.1
    have hone : (slot.index.move 1).val = slot.index.val + 1 := by
      rw [Index.val_move]
      simp only [Index.val_last] at hlt
      omega
    have hraised : ((slot.index.move 1).move n).val = slot.index.val + 1 + n := by
      rw [Index.val_move, hone]
      simp only [Index.val_last] at hlt
      omega
    have hup : shiftSlot scope 1 depth slot = .bound ⟨slot.index.move 1, scope⟩ := if_pos hfree
    have hfurther : shiftSlot scope n depth ⟨slot.index.move 1, scope⟩ =
        .bound ⟨(slot.index.move 1).move n, scope⟩ := if_pos ⟨rfl, by rw [hone]; omega, hfree.2.2⟩
    have hback : shiftSlot scope (-1) (n + depth) ⟨(slot.index.move 1).move n, scope⟩ =
        .bound ⟨((slot.index.move 1).move n).move (-1), scope⟩ := if_pos ⟨rfl, by rw [hraised]; omega, by omega⟩
    have hraise : shiftSlot scope n depth slot = .bound ⟨slot.index.move n, scope⟩ := if_pos hfree
    rw [hup, mapBound, hfurther, mapBound, hback, hraise]
    congr 2
    ext
    rw [Index.val_move, hraised, Index.val_move]
    simp only [Index.val_last] at hlt
    omega
  · have hstay : ∀ delta, shiftSlot scope delta depth slot = .bound slot := fun _ => if_neg hfree
    rw [hstay, mapBound, hstay, mapBound]
    refine if_neg ?_
    rintro ⟨hs, hge, hlt⟩
    exact hfree ⟨hs, by omega, by omega⟩

/-- A tree that moves below `n` binders before it crosses is the same tree afterwards exactly if nothing is free in it
or there are no binders to move below. -/
theorem fill_raise_eq_iff {n : Nat} (ht : t.Counts here) (hroom : t.Raisable n) :
    t.fill there here .var 0 = (t.raise here n).fill there here .var n ↔ n = 0 ∨ t.Covered := by
  have hleft := fill_var there here t 0
  have hright : (t.raise here n).fill there here .var n = t.mapBound
      (fun depth slot => (shiftSlot here n depth slot).mapBound
        (fun d slot => .bound (slot.carried there here (n + d))) depth) 0 := by
    rw [fill_var, show ∀ s : Tree Slot, s.mapBound (fun d slot => .bound (slot.carried there here d)) n =
      s.mapBound (fun d slot => .bound (slot.carried there here (n + d))) 0 from fun s => mapBound_add 0]
    exact mapBound_mapBound (fun _ _ => rfl) t 0
  rw [hleft, hright, mapBound_eq_iff]
  have hslot : ∀ depth (slot : Slot), slot.scope = here →
      (depth ≤ slot.index.val → slot.index.val + n < Index.last.val) →
      (Tree.bound (slot.carried there here depth) = (shiftSlot here n depth slot).mapBound
        (fun d slot => .bound (slot.carried there here (n + d))) depth ↔ n = 0 ∨ slot.index.val < depth) := by
    intro depth slot hs hroom
    by_cases hfree : depth ≤ slot.index.val
    · have hlt := hroom hfree
      have hraised : (slot.index.move n).val = slot.index.val + n := by
        rw [Index.val_move]
        simp only [Index.val_last] at hlt
        omega
      rw [shiftSlot, if_pos ⟨hs, hfree, by omega⟩, mapBound, Slot.carried, if_pos hs, if_neg (by omega),
        Slot.carried, if_pos rfl, if_neg (by rw [hraised]; omega), Tree.bound.injEq]
      constructor
      · intro he
        have hval : slot.index.val = (slot.index.move n).val := congrArg (fun s : Slot => s.index.val) he
        omega
      · intro hn
        rcases hn with rfl | hn
        · rw [Int.natCast_zero, Index.move_zero, ← hs]
        · omega
    · rw [shiftSlot, if_neg (fun h => hfree h.2.1), mapBound]
      refine iff_of_true ?_ (Or.inr (Nat.not_le.mp hfree))
      rw [Slot.carried, Slot.carried, if_pos hs, if_pos hs]
      by_cases hlast : slot.index = Index.last
      · rw [if_neg fun h => h.2 hlast, if_neg fun h => h.2 hlast]
      · rw [if_pos ⟨Nat.not_le.mp hfree, hlast⟩, if_pos ⟨by omega, hlast⟩]
  constructor
  · intro h
    by_cases hn : n = 0
    · exact Or.inl hn
    · exact Or.inr (((h.and ht).and hroom).mono fun depth slot hall =>
        ((hslot depth slot hall.1.2 hall.2).mp hall.1.1).resolve_left hn)
  · rintro (hn | hcovered)
    · exact (ht.and hroom).mono fun depth slot hall => (hslot depth slot hall.1 hall.2).mpr (Or.inl hn)
    · exact ((ht.and hroom).and hcovered).mono fun depth slot hall =>
        (hslot depth slot hall.1.1 hall.1.2).mpr (Or.inr hall.2)

/-- **Crossing and contraction may change places** exactly if nothing is free in the body beyond its variable, and
nothing is free in the argument or its variable is below no binder of the body. The last index belongs to no
binder. -/
theorem contract_fill_eq_iff (hne : here ≠ there) (hbody : body.Counts here) (hargument : argument.Counts here)
    (hroom : body.Every (fun depth slot => slot.index.val = depth → argument.Raisable depth) 0) :
    contract there (body.fill there here .var 1) (argument.fill there here .var 0) =
        (contract here body argument).fill there here .var 0 ↔
      body.Every (fun depth slot => slot.index.val < depth ∨
        slot.index.val = depth ∧ (depth = 0 ∨ slot.index = Index.last ∨ argument.Covered)) 0 := by
  have hright : (contract here body argument).fill there here .var 0 = body.mapBound (fun depth slot =>
      ((substituteSlot here here 0 (argument.shift here 1 0) depth slot).shift here (-1) depth).fill there here .var
        depth) 0 := by
    rw [contract, substitute, shift, mapBound_mapBound fun _ _ => rfl, fill_var]
    exact mapBound_mapBound (fun depth slot => (fill_var there here _ depth).symm) body 0
  rw [contract_fill hne hbody hargument, hright, mapBound_eq_iff]
  have hslot : ∀ depth (slot : Slot), slot.scope = here → (slot.index.val = depth → argument.Raisable depth) →
      ((if slot.index.val = depth ∧ depth < Index.last.val then argument.fill there here .var 0
          else .bound (slot.carried there here (depth + 1))) =
        ((substituteSlot here here 0 (argument.shift here 1 0) depth slot).shift here (-1) depth).fill there here .var
          depth ↔
        slot.index.val < depth ∨
          slot.index.val = depth ∧ (depth = 0 ∨ slot.index = Index.last ∨ argument.Covered)) := by
    intro depth slot hs hroom
    have hle : slot.index.val ≤ Index.last.val := Nat.le_of_lt_succ slot.index.isLt
    by_cases hvar : slot.index.val = depth ∧ depth < Index.last.val
    · have hlast : slot.index ≠ Index.last := fun h => by
        rw [← hvar.1, h] at hvar
        exact absurd hvar.2 (Nat.lt_irrefl _)
      rw [if_pos hvar, substituteSlot, if_pos ⟨hs, hvar⟩, Nat.sub_zero, shift_raise_shift ((hroom hvar.1).liftable here),
        fill_raise_eq_iff hargument (hroom hvar.1)]
      simp [hvar.1, hlast]
    · rw [if_neg hvar, substituteSlot, if_neg fun h => hvar h.2, shift, mapBound, shiftSlot]
      rcases Nat.lt_trichotomy slot.index.val depth with hlt | heq | hgt
      · refine iff_of_true ?_ (Or.inl hlt)
        rw [if_neg (by omega), fill, Slot.carried, Slot.carried, if_pos hs, if_pos hs]
        by_cases hlast : slot.index = Index.last
        · rw [if_neg fun h => h.2 hlast, if_neg fun h => h.2 hlast]
        · rw [if_pos ⟨by omega, hlast⟩, if_pos ⟨hlt, hlast⟩]
      · have hlast : slot.index = Index.last := Fin.ext (by omega)
        refine iff_of_true ?_ (Or.inr ⟨heq, Or.inr (Or.inl hlast)⟩)
        rw [if_neg (by omega), fill, Slot.carried, Slot.carried, if_pos hs, if_pos hs, if_neg fun h => h.2 hlast,
          if_neg fun h => h.2 hlast]
      · have hlowered : (slot.index.move (-1)).val = slot.index.val - 1 := by
          rw [Index.val_move]
          simp only [Index.val_last] at hle
          omega
        refine iff_of_false ?_ (by omega)
        rw [if_pos ⟨hs, by omega, by omega⟩, fill, Slot.carried, if_pos hs, if_neg (by omega), Slot.carried,
          if_pos rfl, if_neg (by rw [hlowered]; omega), Tree.bound.injEq]
        intro he
        have hval : slot.index.val = (slot.index.move (-1)).val := congrArg (fun s : Slot => s.index.val) he
        omega
  constructor
  · exact fun h => ((h.and hbody).and hroom).mono fun depth slot hall => (hslot depth slot hall.1.2 hall.2).mp hall.1.1
  · exact fun h => ((h.and hbody).and hroom).mono fun depth slot hall =>
      (hslot depth slot hall.1.2 hall.2).mpr hall.1.1

end TermGraph.Tree
