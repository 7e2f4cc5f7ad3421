import TermGraph.Proofs.Tree.Filling

/-!
# Shifting by the index alone

`Tree.shift` and `Tree.substitute` take a variable for bound once it is met below `Index.last` binders, because a walk
on nodes cannot count further. A variable that is free so deep down has the last index. So where the last index does
not occur the limit makes no difference, and for a shift upwards it never does: the last index stays what it is.

Within the range a shift upwards can be undone, and it leaves no variable at the index where it begins. That is why a
body that has been lifted forgets the argument it is contracted with.

## Main statements

* `Tree.shift_eq_mapBound`, `Tree.substitute_eq_mapBound` — shifting and substitution go by the index alone
* `Tree.shift_shift_neg` — **a shift within the range can be undone**
* `Tree.substitute_shift_one` — nothing takes the place of an index that has been shifted away
* `Tree.contract_shift_one` — **a lifted body forgets the argument**
-/

namespace TermGraph

/-- What a bound variable below `depth` binders becomes when `delta` is added to the free indices of `scope`, however
many binders there are. -/
def Slot.moved (scope : Nat) (delta : Int) (depth : Nat) (slot : Slot) : Slot :=
  if slot.scope = scope ∧ depth ≤ slot.index.val then ⟨slot.index.move delta, scope⟩ else slot

/-- There is nothing above the last index. -/
theorem Index.move_last (n : Nat) : last.move n = last := by
  ext
  simp only [val_move, val_last]
  omega

/-- An index that moves up within the range moves by as much as was asked for. -/
theorem Index.val_move_of_le {i : Index} {n : Nat} (h : i.val + n ≤ last.val) : (i.move n).val = i.val + n := by
  simp only [val_last] at h
  rw [val_move]
  omega

/-- What is free below more binders than can be counted has the last index. -/
theorem Index.eq_last {i : Index} {depth : Nat} (hd : depth ≤ i.val) (hdeep : ¬depth < last.val) : i = last :=
  Fin.ext (Nat.le_antisymm (Nat.le_of_lt_succ i.isLt) (Nat.le_trans (Nat.not_lt.mp hdeep) hd))

namespace Tree

variable {own scope n depth : Nat} {delta : Int} {slot : Slot} {t : Tree Slot}

/-! ## No limit on the binders -/

/-- Shifting goes by the index alone unless it would move the last index. -/
theorem shiftSlot_eq_moved (h : slot.index = Index.last → Index.last.move delta = Index.last) :
    shiftSlot scope delta depth slot = .bound (slot.moved scope delta depth) := by
  rw [shiftSlot, Slot.moved]
  by_cases hfree : slot.scope = scope ∧ depth ≤ slot.index.val
  · rw [if_pos hfree]
    by_cases hdeep : depth < Index.last.val
    · rw [if_pos ⟨hfree.1, hfree.2, hdeep⟩]
    · have hlast := Index.eq_last hfree.2 hdeep
      have hmove : slot.index.move delta = slot.index := by rw [hlast, h hlast]
      rw [if_neg fun hc => hdeep hc.2.2, hmove, ← hfree.1]
  · rw [if_neg hfree, if_neg fun hc => hfree ⟨hc.1, hc.2.1⟩]

/-- Where the last index does not occur, shifting goes by the index alone. -/
theorem shift_eq_mapBound (start : Nat) (h : t.Every (fun _ slot => slot.index ≠ Index.last) 0) :
    t.shift scope delta start = t.mapBound (fun depth slot => .bound (slot.moved scope delta (start + depth))) 0 :=
  (mapBound_add 0).trans (mapBound_congr (fun _ _ hslot => shiftSlot_eq_moved fun hlast => absurd hlast hslot) h)

/-- Raising always does. -/
theorem raise_eq_moved (own n : Nat) (t : Tree Slot) :
    t.raise own n = t.mapBound (fun depth slot => .bound (slot.moved own n depth)) 0 := by
  have hslot : shiftSlot own n = fun depth slot => .bound (slot.moved own n depth) := by
    funext depth slot
    exact shiftSlot_eq_moved fun _ => Index.move_last n
  rw [raise, shift, hslot]

/-- Where the last index does not occur, substitution goes by the index alone. -/
theorem substitute_eq_mapBound (start : Nat) (r : Tree Slot) (h : t.Every (fun _ slot => slot.index ≠ Index.last) 0) :
    substitute own scope start r t = t.mapBound (fun depth slot =>
      if slot.scope = scope ∧ slot.index.val = start + depth then
        r.mapBound (fun d s => .bound (s.moved own depth d)) 0
      else .bound slot) 0 := by
  refine (mapBound_add 0).trans (mapBound_congr (fun depth slot hslot => ?_) h)
  rw [substituteSlot]
  by_cases htarget : slot.scope = scope ∧ slot.index.val = start + depth
  · have hdeep : start + depth < Index.last.val := by
      by_contra hc
      exact hslot (Index.eq_last htarget.2.ge hc)
    rw [if_pos htarget, if_pos ⟨htarget.1, htarget.2, hdeep⟩, Nat.add_sub_cancel_left, raise_eq_moved]
  · rw [if_neg htarget, if_neg fun hc => htarget ⟨hc.1, hc.2.1⟩]

/-! ## Room to move -/

/-- Adding `n` to the indices of the scope that are free below `depth` binders keeps them in the range. -/
def Roomy (scope n depth : Nat) (t : Tree Slot) : Prop :=
  t.Every (fun d slot => slot.scope = scope → d ≤ slot.index.val → slot.index.val + n ≤ Index.last.val) depth

instance (scope n depth : Nat) (t : Tree Slot) : Decidable (Roomy scope n depth t) :=
  inferInstanceAs (Decidable (Every _ _ _))

/-- **A shift within the range can be undone.** -/
theorem shift_shift_neg (h : t.Roomy scope n depth) : (t.shift scope n depth).shift scope (-n) depth = t := by
  rcases Nat.eq_zero_or_pos n with rfl | hn
  · rw [Int.natCast_zero, Int.neg_zero, shift_zero, shift_zero]
  refine (mapBound_mapBound (fun _ _ => rfl) t depth).trans ((mapBound_congr (g := fun _ => bound)
    (fun d slot hslot => ?_) h).trans (mapBound_bound (fun _ _ => rfl) t depth))
  by_cases hfree : slot.scope = scope ∧ d ≤ slot.index.val
  · have hroom := hslot hfree.1 hfree.2
    have hup : (slot.index.move n).val = slot.index.val + n := Index.val_move_of_le hroom
    have hdown : (slot.index.move n).move (-n) = slot.index := by
      ext
      rw [Index.val_move, hup]
      omega
    have hge : d ≤ (slot.index.move n).val := by omega
    rw [shiftSlot, if_pos ⟨hfree.1, hfree.2, by omega⟩, mapBound, shiftSlot, if_pos ⟨rfl, hge, by omega⟩, hdown,
      ← hfree.1]
  · have hstay : ∀ delta, shiftSlot scope delta d slot = bound slot := fun _ => if_neg fun hc => hfree ⟨hc.1, hc.2.1⟩
    rw [hstay, mapBound, hstay]

/-- Nothing takes the place of an index that has been shifted away: no variable is left there. -/
theorem substitute_shift_one (r : Tree Slot) (h : t.Roomy scope 1 depth) :
    substitute own scope depth r (t.shift scope 1 depth) = t.shift scope 1 depth := by
  refine (mapBound_mapBound (fun _ _ => rfl) t depth).trans (mapBound_congr (fun d slot hslot => ?_) h)
  by_cases hfree : slot.scope = scope ∧ d ≤ slot.index.val
  · have hroom := hslot hfree.1 hfree.2
    have hup : (slot.index.move 1).val = slot.index.val + 1 := Index.val_move_of_le hroom
    have hmoved : shiftSlot scope 1 d slot = bound ⟨slot.index.move 1, scope⟩ :=
      if_pos ⟨hfree.1, hfree.2, by omega⟩
    have hgone : (slot.index.move 1).val ≠ d := by omega
    rw [hmoved, mapBound, substituteSlot, if_neg fun hc => hgone hc.2.1]
  · have hstay : shiftSlot scope 1 d slot = bound slot := if_neg fun hc => hfree ⟨hc.1, hc.2.1⟩
    rw [hstay, mapBound, substituteSlot, if_neg fun hc => hfree ⟨hc.1, hc.2.1.ge⟩]

/-- **A lifted body forgets the argument** it is contracted with. -/
theorem contract_shift_one (a : Tree Slot) (h : t.Roomy own 1 0) : contract own (t.shift own 1 0) a = t := by
  rw [contract, substitute_shift_one _ h]
  exact shift_shift_neg h

end Tree

end TermGraph
