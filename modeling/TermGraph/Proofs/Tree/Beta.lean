import TermGraph.Proofs.Tree.Contraction

/-!
# Contraction in one descent

Contraction lifts the argument below a binder, puts it in the place of the binder's variable and moves the result out
of the binder. `Tree.beta` does the same in one descent: the variable becomes the argument as it is seen from there,
what is free beyond it is lowered by one, and everything else stays. The two agree as long as no index leaves the
range, since a lifted index that has been cut off is not lowered to what it was.

Of two redexes, one around the other, it makes no difference which is contracted first. That is a statement about one
bound variable, with one law for each of the two arguments: what is put in place is raised, and contraction may come
before or after that.

## Main statements

* `Tree.contract_eq_beta` — **contraction is one descent**
* `Tree.beta_beta` — **nested redexes may be contracted in either order**
-/

namespace TermGraph

theorem Index.move_neg_one (i : Index) : i.move (-1) = i.below := by
  have hlt := i.isLt
  ext
  simp only [val_move, val_below]
  omega

/-- A variable is a free one of the scope, or it stays when those are moved. -/
theorem Slot.free_or_stays (own depth : Nat) (slot : Slot) :
    (slot.scope = own ∧ depth ≤ slot.index.val) ∨ (slot.scope = own → slot.index.val < depth) := by
  by_cases hfree : slot.scope = own ∧ depth ≤ slot.index.val
  · exact Or.inl hfree
  · exact Or.inr fun hs => Nat.not_le.mp fun hd => hfree ⟨hs, hd⟩

namespace Tree

variable {own n : Nat} {b t a u a₁ a₂ : Tree Slot}

/-! ## One descent -/

/-- What a bound variable below `depth` lambdas becomes when the binder around them is contracted with the argument,
by the binders of `own`. -/
def betaSlot (own : Nat) (argument : Tree Slot) (depth : Nat) (slot : Slot) : Tree Slot :=
  if slot.scope = own ∧ depth ≤ slot.index.val then
    if slot.index.val = depth then argument.raise own depth else .bound ⟨slot.index.below, own⟩
  else .bound slot

/-- The tree below `depth` lambdas, with the binder around them contracted with the argument. -/
def beta (own : Nat) (argument : Tree Slot) (depth : Nat) : Tree Slot → Tree Slot :=
  mapBound (betaSlot own argument) depth

/-- No index leaves the range when the argument takes the place of the variable. -/
def Fits (own : Nat) (argument : Tree Slot) (depth : Nat) (t : Tree Slot) : Prop :=
  t.Every (fun d slot => slot.scope = own → slot.index.val = d → slot.index ≠ Index.last ∧ argument.Liftable own d)
    depth

instance (own : Nat) (argument : Tree Slot) (depth : Nat) (t : Tree Slot) : Decidable (Fits own argument depth t) :=
  inferInstanceAs (Decidable (Every _ _ _))

/-- Variables of other scopes stay, and so do those of the lambdas that have been passed. -/
theorem betaSlot_stays {depth : Nat} {slot : Slot} (h : slot.scope = own → slot.index.val < depth) :
    betaSlot own a depth slot = .bound slot :=
  if_neg fun hfree => absurd (h hfree.1) (Nat.not_lt.mpr hfree.2)

/-- The variable of the binder becomes the argument. -/
theorem betaSlot_takes {depth : Nat} {slot : Slot} (hs : slot.scope = own) (hi : slot.index.val = depth) :
    betaSlot own a depth slot = a.raise own depth := by
  rw [betaSlot, if_pos ⟨hs, hi.ge⟩, if_pos hi]

/-- What is free beyond the binder is lowered. -/
theorem betaSlot_lowers {depth : Nat} {slot : Slot} (hs : slot.scope = own) (hi : depth < slot.index.val) :
    betaSlot own a depth slot = .bound ⟨slot.index.below, own⟩ := by
  rw [betaSlot, if_pos ⟨hs, hi.le⟩, if_neg hi.ne']

/-- **Contraction is one descent**, as long as no index leaves the range. -/
theorem contract_eq_beta (h : Fits own a 0 b) : contract own b a = beta own a 0 b := by
  rw [contract, substitute, shift, mapBound_mapBound fun _ _ => rfl]
  refine mapBound_congr (fun depth slot hfits => ?_) h
  by_cases hs : slot.scope = own
  · rcases Nat.lt_trichotomy slot.index.val depth with hlt | heq | hgt
    · rw [betaSlot_stays fun _ => hlt, substituteSlot, if_neg fun hc => hlt.ne hc.2.1, mapBound, shiftSlot,
        if_neg fun hc => absurd hc.2.1 (Nat.not_le.mpr hlt)]
    · obtain ⟨hlast, hroom⟩ := hfits hs heq
      have hdepth : depth < Index.last.val := by
        have hle := Nat.le_of_lt_succ slot.index.isLt
        have hne : slot.index.val ≠ Index.last.val := fun hc => hlast (Fin.ext hc)
        simp only [Index.val_last] at *
        omega
      rw [betaSlot_takes hs heq, substituteSlot, if_pos ⟨hs, heq, hdepth⟩, Nat.sub_zero]
      exact shift_raise_shift hroom
    · have hdepth : depth < Index.last.val := Nat.lt_of_lt_of_le hgt (Nat.le_of_lt_succ slot.index.isLt)
      rw [betaSlot_lowers hs hgt, substituteSlot, if_neg fun hc => hgt.ne' hc.2.1, mapBound, shiftSlot,
        if_pos ⟨hs, hgt.le, hdepth⟩, Index.move_neg_one]
  · rw [betaSlot_stays fun hc => absurd hc hs, substituteSlot, if_neg fun hc => hs hc.1, mapBound, shiftSlot,
      if_neg fun hc => hs hc.1]

/-! ## Raising and contracting -/

/-- What may be raised further may be raised less far. -/
theorem Liftable.mono {m : Nat} (h : t.Liftable own n) (hle : m ≤ n) : t.Liftable own m :=
  Every.mono (fun _ _ hslot hs hd => Nat.lt_of_le_of_lt (Nat.add_le_add_left hle _) (hslot hs hd)) h

/-- The value of an index that is raised within the range. -/
theorem val_move_of_lt {i : Index} (h : i.val + n < Index.last.val) : (i.move n).val = i.val + n := by
  simp only [Index.val_last] at h
  rw [Index.val_move]
  omega

/-- Shifting at a depth that raising has moved the tree below is raising further. -/
theorem shift_raise {m k : Nat} (hk : k ≤ n) (t : Tree Slot) : (t.raise own n).shift own m k = t.raise own (n + m) := by
  have hshift : ∀ s : Tree Slot, s.shift own m k = s.mapBound (fun d => shiftSlot own m (k + d)) 0 := fun s =>
    mapBound_add 0
  rw [hshift]
  refine mapBound_mapBound (fun depth slot => ?_) t 0
  unfold shiftSlot
  by_cases hfree : slot.scope = own ∧ depth ≤ slot.index.val ∧ depth < Index.last.val
  · rw [if_pos hfree, if_pos hfree, mapBound]
    by_cases hdeep : k + depth < Index.last.val
    · have hge : k + depth ≤ (slot.index.move n).val := by
        rw [Index.val_move]
        simp only [Index.val_last] at hdeep
        omega
      rw [if_pos ⟨rfl, hge, hdeep⟩]
      congr 2
      ext
      simp only [Index.val_move]
      omega
    · -- below so many binders the index has been cut off already
      rw [if_neg fun hc => hdeep hc.2.2]
      congr 2
      ext
      simp only [Index.val_move, Index.val_last] at *
      omega
  · rw [if_neg hfree, if_neg hfree, mapBound, if_neg]
    exact fun hc => hfree ⟨hc.1, by omega, by omega⟩

/-- Contraction at a depth counts from there. -/
theorem beta_eq_mapBound (own : Nat) (argument : Tree Slot) (k : Nat) (t : Tree Slot) :
    beta own argument k t = t.mapBound (fun d => betaSlot own argument (k + d)) 0 :=
  mapBound_add 0

/-- A free variable of `own` is raised. -/
theorem shiftSlot_raises {depth : Nat} {slot : Slot} (hs : slot.scope = own) (hd : depth ≤ slot.index.val)
    (hroom : slot.index.val + n < Index.last.val) : shiftSlot own n depth slot = .bound ⟨slot.index.move n, own⟩ :=
  if_pos ⟨hs, hd, by omega⟩

/-- A variable of another scope or of a lambda that has been passed is not shifted. -/
theorem shiftSlot_stays {delta : Int} {depth : Nat} {slot : Slot} (h : slot.scope = own → slot.index.val < depth) :
    shiftSlot own delta depth slot = .bound slot :=
  if_neg fun hc => absurd (h hc.1) (Nat.not_lt.mpr hc.2.1)

/-- What has been raised past the binder has nothing to do with its variable. -/
theorem beta_raise_succ (hroom : a.Liftable own n) : beta own u n (a.raise own (n + 1)) = a.raise own n := by
  rw [beta_eq_mapBound]
  refine (mapBound_mapBound (fun _ _ => rfl) a 0).trans (mapBound_congr (fun depth slot hslot => ?_) hroom)
  rcases slot.free_or_stays own depth with ⟨hs, hd⟩ | hstay
  · have hlt := hslot hs hd
    have hraised : (slot.index.move (n + 1 : Nat)).val = slot.index.val + n + 1 := by
      rw [Index.val_move]
      simp only [Index.val_last] at hlt
      omega
    have hup : shiftSlot own (n + 1 : Nat) depth slot = .bound ⟨slot.index.move (n + 1 : Nat), own⟩ :=
      if_pos ⟨hs, hd, by omega⟩
    have hdown : betaSlot own u (n + depth) ⟨slot.index.move (n + 1 : Nat), own⟩ =
        .bound ⟨(slot.index.move (n + 1 : Nat)).below, own⟩ := betaSlot_lowers rfl (by rw [hraised]; omega)
    rw [hup, mapBound, hdown, shiftSlot_raises hs hd hlt]
    congr 2
    ext
    rw [Index.val_below, hraised, val_move_of_lt hlt]
    omega
  · rw [shiftSlot_stays hstay, mapBound, betaSlot_stays fun hs => Nat.lt_add_left n (hstay hs), shiftSlot_stays hstay]

/-- **Contraction may come before or after raising.** -/
theorem beta_raise (hroom : a₁.Liftable own n) : beta own a₂ n (a₁.raise own n) = (beta own a₂ 0 a₁).raise own n := by
  rw [beta_eq_mapBound]
  refine (mapBound_mapBound (fun _ _ => rfl) a₁ 0).trans ((mapBound_congr (fun depth slot hslot => ?_) hroom).trans
    (mapBound_mapBound (fun _ _ => rfl) a₁ 0).symm)
  rcases slot.free_or_stays own depth with ⟨hs, hd⟩ | hstay
  · have hlt := hslot hs hd
    have hraised := val_move_of_lt hlt
    rw [shiftSlot_raises hs hd hlt, mapBound]
    rcases hd.lt_or_eq with hgt | heq
    · have hbelow : slot.index.below.val = slot.index.val - 1 := Index.val_below _
      have hdown : betaSlot own a₂ (n + depth) ⟨slot.index.move n, own⟩ = .bound ⟨(slot.index.move n).below, own⟩ :=
        betaSlot_lowers rfl (by rw [hraised]; omega)
      have hup : shiftSlot own n depth ⟨slot.index.below, own⟩ = .bound ⟨slot.index.below.move n, own⟩ :=
        shiftSlot_raises rfl (by rw [hbelow]; omega) (by rw [hbelow]; omega)
      rw [hdown, betaSlot_lowers hs hgt, mapBound, hup]
      congr 2
      ext
      rw [Index.val_below, hraised, val_move_of_lt (by rw [hbelow]; omega), hbelow]
      omega
    · have htake : betaSlot own a₂ (n + depth) ⟨slot.index.move n, own⟩ = a₂.raise own (n + depth) :=
        betaSlot_takes rfl (by rw [hraised]; omega)
      rw [htake, betaSlot_takes hs heq.symm, Nat.add_comm n depth]
      exact (shift_raise (Nat.le_refl depth) a₂).symm
  · rw [shiftSlot_stays hstay, mapBound, betaSlot_stays fun hs => Nat.lt_add_left n (hstay hs), betaSlot_stays hstay,
      mapBound, shiftSlot_stays hstay]

/-- **Nested redexes may be contracted in either order**: the inner one first, or the outer one first in the body and
in the argument of the inner one. -/
theorem beta_beta (hinner : Fits own a₁ 0 b) (houter : Fits own a₂ 1 b) :
    beta own (beta own a₂ 0 a₁) 0 (beta own a₂ 1 b) = beta own a₂ 0 (beta own a₁ 0 b) := by
  have houter' : b.Every (fun d slot => slot.scope = own → slot.index.val = 1 + d → slot.index ≠ Index.last ∧
      a₂.Liftable own (1 + d)) 0 := (every_add 0).mp houter
  rw [beta_eq_mapBound own a₂ 1 b]
  refine (mapBound_mapBound (fun _ _ => rfl) b 0).trans ((mapBound_congr ?_ (hinner.and houter')).trans
    (mapBound_mapBound (fun _ _ => rfl) b 0).symm)
  rintro depth slot ⟨hin, hout⟩
  by_cases hs : slot.scope = own
  · rcases Nat.lt_trichotomy slot.index.val depth with hlt | heq | hgt
    · -- the variable of a lambda of the body
      rw [betaSlot_stays fun _ => by omega, mapBound, betaSlot_stays fun _ => hlt, betaSlot_stays fun _ => hlt,
        mapBound, betaSlot_stays fun _ => hlt]
    · -- the variable of the inner redex
      rw [betaSlot_stays fun _ => by omega, mapBound, betaSlot_takes hs heq, betaSlot_takes hs heq]
      exact (beta_raise (hin hs heq).2).symm
    · have hbelow : slot.index.below.val = slot.index.val - 1 := Index.val_below _
      rw [betaSlot_lowers hs hgt, mapBound]
      rcases Nat.lt_or_eq_of_le (Nat.succ_le_of_lt hgt) with hfar | hnear
      · -- what is free beyond both is lowered twice
        have hagain : ∀ u, betaSlot own u depth ⟨slot.index.below, own⟩ = .bound ⟨slot.index.below.below, own⟩ :=
          fun u => betaSlot_lowers rfl (by rw [hbelow]; omega)
        rw [betaSlot_lowers hs (by omega), mapBound, hagain, hagain]
      · -- the variable of the outer redex
        have hroom : a₂.Liftable own (1 + depth) := (hout hs (by omega)).2
        have htake : betaSlot own a₂ depth ⟨slot.index.below, own⟩ = a₂.raise own depth :=
          betaSlot_takes rfl (by rw [hbelow]; omega)
        rw [betaSlot_takes hs (by omega), htake, Nat.add_comm 1 depth]
        exact beta_raise_succ (hroom.mono (Nat.le_add_left depth 1))
  · have hstay : ∀ d, slot.scope = own → slot.index.val < d := fun _ h => absurd h hs
    rw [betaSlot_stays (hstay _), mapBound, betaSlot_stays (hstay _), betaSlot_stays (hstay _), mapBound,
      betaSlot_stays (hstay _)]

/-! ## Room in the second order

If there is room when the inner redex is contracted first, there is room when the outer one is. -/

/-- A property of what a tree becomes when it is raised, at a depth it has been moved to. -/
theorem every_raise_iff {Q : Nat → Slot → Prop} {k : Nat} :
    (t.raise own n).Every Q k ↔ t.Every (fun d slot => (shiftSlot own n d slot).Every (fun e => Q (k + e)) d) 0 :=
  (every_add 0).trans every_mapBound_iff

/-- What is contracted may still be raised. -/
theorem Liftable.beta (hroom : a₁.Liftable own n) (htaken : a₁.Every (fun d slot => slot.scope = own →
      slot.index.val = d → a₂.Liftable own (n + d)) 0) : (beta own a₂ 0 a₁).Liftable own n := by
  refine every_mapBound (P := fun d slot => _ ∧ _) ?_ (hroom.and htaken)
  rintro depth slot ⟨hslot, htaken⟩
  rcases slot.free_or_stays own depth with ⟨hs, hd⟩ | hstay
  · have hlt := hslot hs hd
    rcases hd.lt_or_eq with hgt | heq
    · rw [betaSlot_lowers hs hgt]
      intro _ _
      rw [Index.val_below]
      omega
    · rw [betaSlot_takes hs heq.symm, every_raise_iff]
      refine Every.mono (fun d s hs' => ?_) (htaken hs heq.symm)
      rcases s.free_or_stays own d with ⟨hown, hge⟩ | hstay
      · have hfar := hs' hown hge
        rw [shiftSlot_raises hown hge (by omega)]
        intro _ _
        rw [val_move_of_lt (by omega)]
        omega
      · rw [shiftSlot_stays hstay]
        exact fun hs hd => absurd (hstay hs) (by omega)
  · rw [betaSlot_stays hstay]
    exact fun hs hd => absurd (hstay hs) (Nat.not_lt.mpr hd)

/-- Where the inner redex has been contracted, there is room for what the variables of its argument become. -/
theorem Fits.taken (hinner : Fits own a₁ 0 b) (hafter : Fits own a₂ 0 (Tree.beta own a₁ 0 b)) :
    b.Every (fun d slot => slot.scope = own → slot.index.val = d →
      a₁.Every (fun e s => s.scope = own → s.index.val = e → a₂.Liftable own (d + e)) 0) 0 := by
  refine Every.mono ?_ (hinner.and (every_mapBound_iff.mp hafter))
  rintro depth slot ⟨hin, hout⟩ hs hi
  have hroom := (hin hs hi).2
  rw [betaSlot_takes hs hi, every_raise_iff] at hout
  refine Every.mono ?_ (hroom.and hout)
  rintro e s ⟨hlt, hout⟩ hs' hi'
  have hlt := hlt hs' hi'.ge
  rw [shiftSlot_raises hs' hi'.ge hlt] at hout
  exact (hout rfl (by rw [val_move_of_lt hlt]; omega)).2

/-- **If there is room to contract the inner redex first, there is room to contract the outer one first.** -/
theorem Fits.beta (hinner : Fits own a₁ 0 b) (houter : Fits own a₂ 1 b)
    (hafter : Fits own a₂ 0 (Tree.beta own a₁ 0 b)) : Fits own (Tree.beta own a₂ 0 a₁) 0 (Tree.beta own a₂ 1 b) := by
  have houter' : b.Every (fun d slot => slot.scope = own → slot.index.val = 1 + d → slot.index ≠ Index.last ∧
      a₂.Liftable own (1 + d)) 0 := (every_add 0).mp houter
  rw [beta_eq_mapBound own a₂ 1 b]
  refine every_mapBound (P := fun d slot => (_ ∧ _) ∧ _) ?_ ((hinner.and houter').and (hinner.taken hafter))
  rintro depth slot ⟨⟨hin, hout⟩, htaken⟩
  by_cases hs : slot.scope = own
  · rcases Nat.lt_trichotomy slot.index.val (1 + depth) with hlt | heq | hgt
    · rw [betaSlot_stays fun _ => hlt]
      exact fun _ hi => ⟨(hin hs hi).1, (hin hs hi).2.beta (htaken hs hi)⟩
    · -- nothing in the argument counts as the variable after it has been raised past it
      have hroom := (hout hs heq).2
      rw [betaSlot_takes hs heq, Nat.add_comm 1 depth, every_raise_iff]
      refine Every.mono (fun d s hs' => ?_) hroom
      rcases s.free_or_stays own d with ⟨hown, hge⟩ | hstay
      · have hlt := hs' hown hge
        rw [shiftSlot_raises hown hge (by omega)]
        intro _ hi
        rw [val_move_of_lt (by omega)] at hi
        omega
      · rw [shiftSlot_stays hstay]
        intro hs hi
        have := hstay hs
        omega
    · rw [betaSlot_lowers hs hgt]
      intro _ hi
      rw [Index.val_below] at hi
      omega
  · rw [betaSlot_stays fun hc => absurd hc hs]
    exact fun hc => absurd hc hs

end Tree

end TermGraph
