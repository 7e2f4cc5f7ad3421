import TermGraph.Proofs.Insertion.Crossing

/-!
# There and back

A planted tree that is inserted into another store and then back again has its lambdas bound anew twice. What they
bind is the same afterwards. A free index of the first store keeps its value on the way out, where every lambda
above it goes over to the other store; on the way back it makes room for each of these lambdas and is raised by
their number. So a term comes back as itself only if nothing is free in it below a lambda.

## Main statements

* `World.returned_of_reachable` — **what comes back, and when it is the term that was sent**
* `World.not_returned_of_free` — `λ.%1` comes back as another term
-/

namespace TermGraph

/-- What becomes of a bound variable on the way out and back. -/
theorem Slot.carried_carried {here there : Nat} (hne : here ≠ there) (index : Index) (depth : Nat) :
    (Slot.carried there here depth ⟨index, here⟩).carried here there depth =
      ⟨if index.val < depth then index else index.move depth, here⟩ := by
  by_cases hin : index.val < depth ∧ index ≠ Index.last
  · have hout : carried there here depth ⟨index, here⟩ = ⟨index, there⟩ := by
      rw [carried, if_pos rfl, if_pos hin]
    rw [hout, carried, if_pos rfl, if_pos hin, if_pos hin.1]
  · have hout : carried there here depth ⟨index, here⟩ = ⟨index, here⟩ := by
      rw [carried, if_pos rfl, if_neg hin]
    rw [hout, carried, if_neg hne, if_pos rfl]
    congr 1
    split
    · next hlt =>
      -- the last index is beyond every lambda and cannot be raised
      have hlast : index = Index.last := not_not.mp fun h => hin ⟨hlt, h⟩
      rw [hlast]
      ext
      simp only [Index.val_move, Index.val_last]
      omega
    · rfl

/-- Only where nothing is above it, or no room is left, a free index is not raised. -/
theorem Index.carried_eq_self_iff {index : Index} {depth : Nat} :
    (if index.val < depth then index else index.move depth) = index ↔
      index.val < depth ∨ depth = 0 ∨ index = Index.last := by
  have hle := Nat.le_of_lt_succ index.isLt
  simp only [Fin.ext_iff, val_last]
  split
  · next hlt => exact iff_of_true rfl (Or.inl hlt)
  · next hge =>
    rw [val_move]
    omega

namespace World

variable {world : World}

/-- **What comes back from another store, and when it is the term that was sent.** In every reachable world, a tree
is planted in one store, inserted into another and back, all without fail. The node that comes back unfolds to the
tree with every free index raised by the number of lambdas above it, and is the node that was sent exactly if that
changes no index. -/
theorem returned_of_reachable (h : world.Reachable) {here there : Nat} (hne : here ≠ there)
    (tree : Tree Index) (journal journal' : Journal) :
    ∃ t u v bench bench' bench'',
      Work.plant tree ⟨world.stores here, journal⟩ = (.ok t, bench) ∧
      Work.insert .none t ⟨world.stores there, journal'⟩ = (.ok u, bench') ∧
      Work.insert .none u bench = (.ok v, bench'') ∧
      v.tree = tree.mapBound (fun depth index =>
        .bound ⟨if index.val < depth then index else index.move depth, here⟩) 0 ∧
      (v = t ↔ tree.Every (fun depth index => index.val < depth ∨ depth = 0 ∨ index = Index.last) 0) := by
  obtain ⟨hcanon, hscope⟩ : (⟨world.stores here, journal⟩ : Bench).store.Canonical ∧ _ := h.sound.stores here
  obtain ⟨hcanon', hscope'⟩ : (⟨world.stores there, journal'⟩ : Bench).store.Canonical ∧ _ :=
    h.sound.stores there
  obtain ⟨t, bench, hplant, hbench, hle, ht, httree⟩ :=
    (Work.plant_yields hcanon tree).succeeds
  have hs : bench.store.scope = here := (Store.scope_eq_of_le hle.1).trans hscope
  obtain ⟨u, bench', hout, hbench', hle', hu, hutree⟩ :=
    (Work.insert_foreign hbench hcanon' ht
      (by rw [hs, hscope']; exact hne)).succeeds
  have hs' : bench'.store.scope = there := (Store.scope_eq_of_le hle'.1).trans hscope'
  obtain ⟨v, bench'', hback, hbench'', hle'', hv, hvtree⟩ :=
    (Work.insert_foreign hbench' hbench hu (by rw [hs, hs']; exact hne.symm)).succeeds
  have htree : v.tree = tree.mapBound (fun depth index =>
      .bound ⟨if index.val < depth then index else index.move depth, here⟩) 0 := by
    rw [hvtree, hutree, httree, hs, hs', hscope, hscope', Tree.fill_var, Tree.fill_var, Tree.planted]
    rw [Tree.mapBound_mapBound (fun _ _ => rfl), Tree.mapBound_mapBound fun depth index => ?_]
    exact congrArg Tree.bound (Slot.carried_carried hne index depth)
  refine ⟨t, u, v, bench, bench', bench'', hplant, hout, hback, htree, ?_⟩
  rw [← hbench''.tree_eq_iff hv (ht.mono hle''.1), htree, httree, hscope, Tree.planted, Tree.mapBound_eq_iff]
  simp only [plantSlot, Tree.bound.injEq, Slot.mk.injEq, and_true, Index.carried_eq_self_iff]

/-- `p(%3, λ.λ.(%1 %0))` comes back from store 1 as itself. -/
theorem returned_with_free_index :
    let tree : Tree Index := .fn "p" [.bound (.clamp 3),
      .lambda (.lambda (.app (.bound (.clamp 1)) (.bound (.clamp 0))))]
    ∃ t u bench bench' bench'', Work.plant tree ⟨start.stores 0, #[]⟩ = (.ok t, bench) ∧
      Work.insert .none t ⟨start.stores 1, #[]⟩ = (.ok u, bench') ∧
      Work.insert .none u bench = (.ok t, bench'') := by
  intro tree
  obtain ⟨t, u, v, bench, bench', bench'', hplant, hout, hback, -, hsame⟩ :=
    returned_of_reachable .start zero_ne_one tree #[] #[]
  obtain rfl : v = t := hsame.mpr (by decide)
  exact ⟨v, u, bench, bench', bench'', hplant, hout, hback⟩

/-- `λ.%1` comes back from store 1 as `λ.%2`. -/
theorem not_returned_of_free :
    let tree : Tree Index := .lambda (.bound (.clamp 1))
    ∃ t u v bench bench' bench'', Work.plant tree ⟨start.stores 0, #[]⟩ = (.ok t, bench) ∧
      Work.insert .none t ⟨start.stores 1, #[]⟩ = (.ok u, bench') ∧
      Work.insert .none u bench = (.ok v, bench'') ∧ v ≠ t ∧ v.tree = .lambda (.bound ⟨.clamp 2, 0⟩) := by
  intro tree
  have hrun : passes (Work.plant tree ⟨start.stores 0, #[]⟩) fun t bench =>
      passes (Work.insert .none t ⟨start.stores 1, #[]⟩) fun u _ =>
        passes (Work.insert .none u bench) fun v _ =>
          decide (v.id ≠ t.id ∧ v.tree = .lambda (.bound ⟨.clamp 2, 0⟩)) := by decide +kernel
  obtain ⟨t, bench, hplant, hrun⟩ := exists_of_passes hrun
  obtain ⟨u, bench', hout, hrun⟩ := exists_of_passes hrun
  obtain ⟨v, bench'', hback, hrun⟩ := exists_of_passes hrun
  obtain ⟨hid, htree⟩ := of_decide_eq_true hrun
  exact ⟨t, u, v, bench, bench', bench'', hplant, hout, hback, fun hvt => hid (by rw [hvt]), htree⟩

end World

end TermGraph
