import TermGraph.Proofs.Insertion.Copied
import TermGraph.Proofs.Tree.Contraction
import TermGraph.Proofs.Tree.Renaming

/-!
# What stays within its binders

A tree is enclosed by `room` binders if these and the lambdas of the tree are enough for every bound variable of a
scope. Whatever is done to nodes keeps them enclosed: contraction takes a binder and the body's need for it away, and
a lambda that is bound anew makes room for the variables that move below it.

The last index does not tell its binder, and contraction leaves it alone below as many lambdas. It has to be
excluded.

## Main statements

* `Tree.Kept.of_shape`, `Tree.Enclosed.adopted`, `Tree.Enclosed.contract` — what keeps trees enclosed
* `Tree.fill_var_eq_rename_iff` — **a tree is renamed when its lambdas are bound anew exactly if it has no free
  indices**, and the last does not occur
-/

namespace TermGraph

namespace Tree

variable {own other scope room : Nat} {t u v body argument : Tree Slot}

/-- Every bound variable that counts binders of `own` is bound by a lambda of the tree or by one of `room` binders
around it, and none counts binders of `other`. -/
def Enclosed (own other room : Nat) (t : Tree Slot) : Prop :=
  t.Every (fun depth slot => slot.scope ≠ other ∧ (slot.scope = own → slot.index.val < depth + room)) 0

/-- No bound variable that counts binders of the scope has the last index. -/
def Unsaturated (own : Nat) (t : Tree Slot) : Prop :=
  t.Every (fun _ slot => slot.scope = own → slot.index ≠ Index.last) 0

instance (own other room : Nat) (t : Tree Slot) : Decidable (t.Enclosed own other room) :=
  inferInstanceAs (Decidable (t.Every _ 0))

instance (own : Nat) (t : Tree Slot) : Decidable (t.Unsaturated own) := inferInstanceAs (Decidable (t.Every _ 0))

/-- Lambdas above the tree are room for it. -/
theorem enclosed_depth (depth : Nat) : t.Every (fun d slot => slot.scope ≠ other ∧
    (slot.scope = own → slot.index.val < d + room)) depth ↔ t.Enclosed own other (depth + room) := by
  refine (every_add (k := depth) 0).trans ?_
  simp only [Enclosed, Nat.add_comm depth, Nat.add_assoc]

theorem enclosed_lambda : (lambda body).Enclosed own other room ↔ body.Enclosed own other (1 + room) :=
  enclosed_depth 1

/-! ## One level -/

/-- However many binders enclose the one tree, they enclose the other. -/
def Kept (own other : Nat) (t u : Tree Slot) : Prop := ∀ room, t.Enclosed own other room → u.Enclosed own other room

theorem Kept.refl (t : Tree Slot) : Kept own other t t := fun _ h => h

theorem Kept.trans (h : Kept own other t u) (h' : Kept own other u v) : Kept own other t v :=
  fun room ht => h' room (h room ht)

/-- What is kept of the children is kept of the tree. -/
theorem Kept.of_shape {α : Type} {f g : α → Tree Slot} {s : Shape α}
    (h : ∀ a ∈ s.children, Kept own other (f a) (g a)) : Kept own other (ofShape (s.map f)) (ofShape (s.map g)) := by
  intro room hroom
  cases s with
  | var | const | bound => exact hroom
  | fn symbol args =>
    refine everyAll_iff.mpr (List.forall_mem_map.mpr fun a ha => h a ha room ?_)
    exact everyAll_iff.mp hroom _ (List.mem_map_of_mem ha)
  | app f a =>
    exact ⟨h f List.mem_cons_self room hroom.1, h a (List.mem_cons_of_mem _ List.mem_cons_self) room hroom.2⟩
  | lambda body => exact enclosed_lambda.mpr (h body List.mem_cons_self _ (enclosed_lambda.mp hroom))

/-- A lambda of another store that is bound anew makes room for the variables that move below it. -/
theorem Enclosed.rebind (hne : scope ≠ own) (hother : own ≠ other) (h : body.Enclosed own other room) :
    (rebind own scope body).Enclosed own other room := by
  rw [rebind_eq hne, enclosed_lambda]
  refine every_mapBound (fun depth slot hslot => ?_) h
  obtain ⟨hapart, hbound⟩ := hslot
  unfold rebindSlot
  split
  · next ho =>
    have hlt := hbound ho
    split
    · refine ⟨hother, fun _ => ?_⟩
      rw [Index.val_move]
      omega
    · exact ⟨hapart, fun _ => by omega⟩
  · next ho =>
    split
    · next hvar => exact ⟨hother, fun _ => by have := hvar.2.1; dsimp only; omega⟩
    · exact ⟨hapart, fun hs => absurd hs ho⟩

/-- **A node of another store whose children are enclosed is copied into what is enclosed**, unless it is itself a
variable of one of the scopes. -/
theorem Enclosed.adopted (hne : scope ≠ own) (hother : own ≠ other) {s : Shape (Tree Slot)}
    (h : ∀ c ∈ s.children, c.Enclosed own other room)
    (hbound : ∀ index slotScope, s = .bound index slotScope → slotScope ≠ own ∧ slotScope ≠ other) :
    (adopted own scope s).Enclosed own other room := by
  cases s with
  | var | const => trivial
  | fn symbol args => exact everyAll_iff.mpr h
  | app f a => exact ⟨h f List.mem_cons_self, h a (List.mem_cons_of_mem _ List.mem_cons_self)⟩
  | lambda body =>
    rw [Tree.adopted, if_neg hne]
    exact (h body List.mem_cons_self).rebind hne hother
  | bound index slotScope =>
    obtain ⟨ho, hapart⟩ := hbound index slotScope rfl
    exact ⟨hapart, fun hs => absurd hs ho⟩

/-! ## Contraction -/

/-- A bound variable of the argument that moves below `n` binders, and out of the one that is gone. -/
theorem every_moved {n : Nat} {slot : Slot} {depth : Nat} (hother : own ≠ other) (hapart : slot.scope ≠ other)
    (hbound : slot.scope = own → slot.index.val < depth + room) :
    Every (fun d slot => slot.scope ≠ other ∧ (slot.scope = own → slot.index.val < d + room)) (n + depth)
      (((shiftSlot own 1 depth slot).mapBound (shiftSlot own n) depth).mapBound
        (fun d => shiftSlot own (-1) (n + d)) depth) := by
  by_cases hfree : slot.scope = own ∧ depth ≤ slot.index.val ∧ depth < Index.last.val
  · have hlt := hbound hfree.1
    have hlast := hfree.2.2
    simp only [Index.val_last] at hlast
    have hone : (slot.index.move 1).val = min (slot.index.val + 1) 4294967295 := by
      rw [Index.val_move]
      omega
    have hraised : ((slot.index.move 1).move n).val = min (slot.index.val + 1 + n) 4294967295 := by
      rw [Index.val_move, hone]
      omega
    have hup : shiftSlot own 1 depth slot = .bound ⟨slot.index.move 1, own⟩ := if_pos hfree
    have hfurther : shiftSlot own n depth ⟨slot.index.move 1, own⟩ = .bound ⟨(slot.index.move 1).move n, own⟩ :=
      if_pos ⟨rfl, by rw [hone]; omega, hfree.2.2⟩
    rw [hup, mapBound, hfurther, mapBound, shiftSlot]
    split
    · refine ⟨hother, fun _ => ?_⟩
      rw [Index.val_move, hraised]
      omega
    · next hdeep =>
      -- so many binders are above that all indices are below their number
      have hmany : ¬ n + depth < 4294967295 := fun hlt =>
        hdeep ⟨rfl, by rw [hraised]; omega, by rwa [Index.val_last]⟩
      refine ⟨hother, fun _ => ?_⟩
      rw [hraised]
      omega
  · have hstay : ∀ delta, shiftSlot own delta depth slot = .bound slot := fun _ => if_neg hfree
    rw [hstay, mapBound, hstay, mapBound, shiftSlot, if_neg]
    · exact ⟨hapart, fun hs => by have := hbound hs; omega⟩
    · rintro ⟨hs, hge, hlt⟩
      exact hfree ⟨hs, by omega, by omega⟩

/-- **The contraction is enclosed where the redex is.** -/
theorem Enclosed.contract (hother : own ≠ other) (hbody : body.Enclosed own other (1 + room))
    (hargument : argument.Enclosed own other room) (hsaturated : body.Unsaturated own) :
    (contract own body argument).Enclosed own other room := by
  have hcontract : Tree.contract own body argument = body.mapBound (fun depth slot =>
      (substituteSlot own own 0 (argument.shift own 1 0) depth slot).shift own (-1) depth) 0 :=
    mapBound_mapBound (fun _ _ => rfl) body 0
  rw [hcontract]
  refine every_mapBound (fun depth slot hslot => ?_) (hbody.and hsaturated)
  obtain ⟨⟨hapart, hbound⟩, hlast⟩ := hslot
  rw [substituteSlot]
  split
  · rw [Nat.sub_zero]
    have hmoved : ((argument.shift own 1 0).raise own depth).shift own (-1) depth = argument.mapBound (fun d slot =>
        ((shiftSlot own 1 d slot).mapBound (shiftSlot own depth) d).mapBound
          (fun d => shiftSlot own (-1) (depth + d)) d) 0 := by
      rw [shift, show ∀ s : Tree Slot, s.mapBound (shiftSlot own (-1)) depth =
        s.mapBound (fun d => shiftSlot own (-1) (depth + d)) 0 from fun s => mapBound_add 0]
      exact (congrArg _ (mapBound_mapBound (fun _ _ => rfl) argument 0)).trans
        (mapBound_mapBound (fun _ _ => rfl) argument 0)
    rw [hmoved]
    refine (every_add (k := depth) 0).mpr (every_mapBound (fun d slot hslot => ?_) hargument)
    exact (every_add d).mp (every_moved hother hslot.1 hslot.2)
  · next hvar =>
    rw [shift, mapBound, shiftSlot]
    split
    · next hfree =>
      refine ⟨hother, fun _ => ?_⟩
      have hlt := hbound hfree.1
      have hne : slot.index.val ≠ depth := fun he => hvar ⟨hfree.1, he, hfree.2.2⟩
      rw [Index.val_move]
      omega
    · next hstay =>
      refine ⟨hapart, fun hs => ?_⟩
      have hlt := hbound hs
      have hlt' : slot.index.val < 4294967295 := by
        have hle := slot.index.isLt
        have hne : slot.index.val ≠ Index.last.val := fun he => hlast hs (Fin.ext he)
        simp only [Index.val_last] at hne
        omega
      by_contra hge
      exact hstay ⟨hs, by omega, by simp only [Index.val_last]; omega⟩

/-! ## Crossing -/

/-- When lambdas are bound anew, exactly those bound variables are renamed that one of the lambdas binds and that tell
which, and those that count the binders of neither store. -/
theorem carried_eq_rename_iff (hother : own ≠ other) {slot : Slot} {depth : Nat} :
    slot.carried other own depth = slot.rename (Equiv.swap own other) ↔
      (slot.scope ≠ other ∧ (slot.scope = own → slot.index.val < depth)) ∧
        (slot.scope = own → slot.index ≠ Index.last) := by
  unfold Slot.carried Slot.rename
  by_cases ho : slot.scope = own
  · rw [if_pos ho, ho, Equiv.swap_apply_left]
    split
    · next hbound => exact iff_of_true rfl ⟨⟨hother, fun _ => hbound.1⟩, fun _ => hbound.2⟩
    · next hfree =>
      -- the variable keeps its scope
      refine iff_of_false (fun heq => hother ?_) fun h => hfree ⟨h.1.2 rfl, h.2 rfl⟩
      exact ho.symm.trans (congrArg Slot.scope heq)
  · rw [if_neg ho]
    by_cases hs : slot.scope = other
    · rw [if_pos hs, hs, Equiv.swap_apply_right]
      exact iff_of_false (fun heq => hother (congrArg Slot.scope heq).symm) fun h => h.1.1 rfl
    · rw [if_neg hs, Equiv.swap_apply_of_ne_of_ne ho hs]
      exact iff_of_true rfl ⟨⟨hs, fun h => absurd h ho⟩, fun h => absurd h ho⟩

/-- **A tree is renamed when its lambdas are bound anew exactly if it has no free indices**, does not count binders of
the other store, and the last index does not occur. -/
theorem fill_var_eq_rename_iff (hother : own ≠ other) :
    t.fill other own .var 0 = t.rename (Equiv.swap own other) ↔ t.Enclosed own other 0 ∧ t.Unsaturated own := by
  rw [fill_var, rename, mapBound_eq_iff]
  constructor
  · intro h
    exact ⟨h.mono fun _ _ heq => ((carried_eq_rename_iff hother).mp (bound.inj heq)).1,
      h.mono fun _ _ heq => ((carried_eq_rename_iff hother).mp (bound.inj heq)).2⟩
  · rintro ⟨henclosed, hlast⟩
    exact (henclosed.and hlast).mono fun _ _ hslot => congrArg bound ((carried_eq_rename_iff hother).mpr hslot)

end Tree

end TermGraph
