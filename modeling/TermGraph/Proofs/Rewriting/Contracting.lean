import TermGraph.Proofs.Insertion.Crossing
import TermGraph.Proofs.Rewriting.Reduct
import TermGraph.Proofs.Tree.Contraction

/-!
# Contraction in another store

A redex of another store is inserted first and contracted there. Its lambda goes over to the new store, while what is
free in it goes on counting the binders of the old one. So contraction, which only moves the indices of its own store,
leaves them alone: what is free in the body is not lowered when the binder disappears, and what is free in the argument
is not raised below the binders of the body. In the store of the redex both happen. The two ways therefore give the
same node if nothing is free in the redex, and in general they do not.

## Main statements

* `Work.contract_foreign` — contraction of a term of another store
* `World.contracted_of_reachable` — **when contraction in another store gives the copy of the contraction**
* `World.not_contracted_of_free` — for `(λ.%1) z` it does not
-/

namespace TermGraph

namespace Work

variable {source : Store} {bench : Bench} {t : Term}

/-- A term of another store is contracted as its copy is. -/
theorem contract_foreign (hsource : source.Canonical) (h : bench.store.Canonical) (ht : source.Owns t)
    (hne : source.scope ≠ bench.store.scope) :
    working.Yields (contract t) bench
      (fun r bench' => (∀ u ∈ r, bench'.store.Owns u) ∧ r.map Term.tree =
        (t.tree.fill bench.store.scope source.scope .var 0).contraction? bench.store.scope) fun _ _ => False := by
  obtain ⟨copy, bench₁, hinsert, h₁, hgrows₁, hcopy, htree⟩ := (insert_foreign hsource h ht hne).succeeds
  have hforeign : ¬ bench.store.contains t = true := fun hc =>
    hne ((hsource.scope_eq ht).symm.trans (Store.contains_iff.mp hc))
  have hadopt : adopt t bench = (.ok copy, bench₁) := (adopt_foreign hforeign).trans hinsert
  have hsame : contract t bench = contract copy bench₁ := by
    unfold contract
    simp only [Bind.bind, ExceptT.bind, ExceptT.mk, StateT.bind, hadopt, adopt_owned (h₁.contains hcopy)]
  obtain ⟨r, bench₂, hrun, h₂, hgrows₂, hown, hr⟩ := (contract_reads h₁ hcopy).succeeds
  refine .of_eq_ok (hsame.trans hrun) h₂ (working.trans hgrows₁ hgrows₂) ⟨hown, ?_⟩
  rw [hr, htree, Store.scope_eq_of_le hgrows₁.1]

end Work

/-- Only a lambda next to its argument has a contraction. -/
theorem Tree.contraction?_eq_some_iff {own : Nat} {t u : Tree Slot} : t.contraction? own = some u ↔
    ∃ body argument, t = .app (.lambda body) argument ∧ u = contract own body argument := by
  constructor
  · intro h
    unfold contraction? at h
    split at h
    · next body argument => exact ⟨body, argument, rfl, (Option.some.inj h).symm⟩
    · cases h
  · rintro ⟨body, argument, rfl, rfl⟩
    rfl

/-- Crossing makes no redex and destroys none. -/
theorem Tree.contraction?_fill {here there : Nat} (t : Tree Slot) :
    (t.fill there here .var 0).contraction? there = none ↔ t.contraction? here = none := by
  cases t with
  | app f a => cases f <;> simp [fill, contraction?, raise, shift, mapBound]
  | var x => simp [fill, contraction?, raise, shift, mapBound]
  | _ => simp [fill, contraction?]

namespace World

variable {world : World} {here there : Nat} {t : Term}

/-- **When contraction in another store gives the copy of the contraction.** In every reachable world, a term whose
bound variables count the binders of its store is contracted there and in another store, without fail. There is a
contraction in the one store, that of the term's tree, exactly if there is one in the other. In the other store, the
argument takes the place of the variable as it is, and what is free stays. Unless an index leaves the range, this is the
copy of the contraction exactly if nothing is free in the body beyond its variable, and nothing is free in the argument
or its variable is below no binder of the body. -/
theorem contracted_of_reachable (h : world.Reachable) (hne : here ≠ there) (journal journal' : Journal)
    (ht : (world.stores here).Owns t) (hcounts : t.tree.Counts here) :
    ∃ r bench r' bench', Work.contract t ⟨world.stores here, journal⟩ = (.ok r, bench) ∧
      Work.contract t ⟨world.stores there, journal'⟩ = (.ok r', bench') ∧
      r.map Term.tree = t.tree.contraction? here ∧ (r' = none ↔ r = none) ∧
      ∀ u ∈ r, ∃ w ∈ r', ∃ v bench'', Work.insert .none u bench' = (.ok v, bench'') ∧ bench'.store.Owns w ∧
        ∃ body argument, t.tree = .app (.lambda body) argument ∧
          w.tree = body.mapBound (fun depth slot =>
            if slot.index.val = depth ∧ depth < Index.last.val then argument.fill there here .var 0
            else .bound (slot.carried there here (depth + 1))) 0 ∧
          (body.Every (fun depth slot => slot.index.val = depth → argument.Raisable depth) 0 →
            (w = v ↔ body.Every (fun depth slot => slot.index.val < depth ∨
              slot.index.val = depth ∧ (depth = 0 ∨ slot.index = Index.last ∨ argument.Covered)) 0)) := by
  obtain ⟨hcanon, hscope⟩ : (⟨world.stores here, journal⟩ : Bench).store.Canonical ∧ _ := h.sound.stores here
  obtain ⟨hcanon', hscope'⟩ : (⟨world.stores there, journal'⟩ : Bench).store.Canonical ∧ _ :=
    h.sound.stores there
  obtain ⟨r, bench, hrun, hbench, hgrows, hown, hr⟩ := (Work.contract_reads hcanon ht).succeeds
  obtain ⟨r', bench', hrun', hbench', hgrows', hown', hr'⟩ :=
    (Work.contract_foreign hcanon hcanon' ht (by rw [hscope, hscope']; exact hne)).succeeds
  rw [hscope] at hr
  rw [hscope, hscope'] at hr'
  have hnone : r' = none ↔ r = none := by
    rw [← Option.map_eq_none_iff (f := Term.tree), hr', Tree.contraction?_fill, ← hr, Option.map_eq_none_iff]
  refine ⟨r, bench, r', bench', hrun, hrun', hr, hnone, ?_⟩
  rintro u rfl
  obtain ⟨w, rfl⟩ : ∃ w, r' = some w := Option.ne_none_iff_exists'.mp fun hno => by cases hnone.mp hno
  have hu : bench.store.Owns u := hown u rfl
  have hw : bench'.store.Owns w := hown' w rfl
  have hs : bench.store.scope = here := (Store.scope_eq_of_le hgrows.1).trans hscope
  have hs' : bench'.store.scope = there := (Store.scope_eq_of_le hgrows'.1).trans hscope'
  obtain ⟨v, bench'', hinsert, hbench'', hgrows'', hv, hvtree⟩ :=
    (Work.insert_foreign hbench hbench' hu (by rw [hs, hs']; exact hne)).succeeds
  obtain ⟨body, argument, htree, hutree⟩ := Tree.contraction?_eq_some_iff.mp hr.symm
  have hbody : body.Counts here := by
    have hlambda : (Tree.lambda body).Every (fun _ slot => slot.scope = here) 0 := (htree ▸ hcounts).1
    exact Tree.every_depth.mp hlambda
  have hargument : argument.Counts here := (htree ▸ hcounts).2
  have hwtree : w.tree = Tree.contract there (body.fill there here .var 1) (argument.fill there here .var 0) := by
    rw [htree] at hr'
    exact Option.some.inj hr'
  refine ⟨w, rfl, v, bench'', hinsert, hw, body, argument, htree, ?_, fun hroom => ?_⟩
  · rw [hwtree, Tree.contract_fill hne hbody hargument]
  · rw [← hbench''.tree_eq_iff (hw.mono hgrows''.1) hv, hwtree, hvtree, hs, hs', hutree]
    exact Tree.contract_fill_eq_iff hne hbody hargument hroom

/-- `(λ.f(%0, λ.%0)) %3` contracts to `f(%3, λ.%0)` in store 0, and in store 1 to the copy of that. -/
theorem contracted_beside_binder :
    let tree : Tree Index := .app (.lambda (.fn "f" [.bound (.clamp 0), .lambda (.bound (.clamp 0))]))
      (.bound (.clamp 3))
    let world := start.step 0 0 (.plant tree)
    ∃ t u w bench bench' bench'', t.tree = tree.planted 0 ∧
      Work.contract t ⟨world.stores 0, #[]⟩ = (.ok (some u), bench) ∧
      Work.contract t ⟨world.stores 1, #[]⟩ = (.ok (some w), bench') ∧
      Work.insert .none u bench' = (.ok w, bench'') := by
  intro tree world
  have hreach : world.Reachable := .step 0 0 .start (admits_plant _ _)
  obtain ⟨t, ht, hscope, htree⟩ := Reachable.start.planted 0 0 tree
  rw [Has, hscope] at ht
  obtain ⟨r, bench, r', bench', hrun, hrun', hr, -, hall⟩ :=
    contracted_of_reachable hreach zero_ne_one #[] #[] ht (by rw [htree]; decide)
  obtain ⟨u, rfl, -⟩ := Option.map_eq_some_iff.mp (hr.trans (by rw [htree]; rfl))
  obtain ⟨w, hw, v, bench'', hinsert, -, body, argument, hredex, -, hsame⟩ := hall u rfl
  have hparts : Tree.app (.lambda (.fn "f" [.bound ⟨.clamp 0, 0⟩, .lambda (.bound ⟨.clamp 0, 0⟩)]))
      (.bound ⟨.clamp 3, 0⟩) = .app (.lambda body) argument := htree.symm.trans hredex
  cases hparts
  rw [Option.mem_def] at hw
  subst hw
  obtain rfl : w = v := (hsame (by decide)).mpr (by decide)
  exact ⟨t, u, w, bench, bench', bench'', htree, hrun, hrun', hinsert⟩

/-- `(λ.%1) z` contracts to `%0` in store 0, and that is copied as it is; but in store 1 it contracts to `%1`. -/
theorem not_contracted_of_free :
    let tree : Tree Index := .app (.lambda (.bound (.clamp 1))) (.fn "z" [])
    ∃ t u w v bench bench' bench'' bench₃, Work.plant tree ⟨start.stores 0, #[]⟩ = (.ok t, bench) ∧
      Work.contract t bench = (.ok (some u), bench') ∧
      Work.contract t ⟨start.stores 1, #[]⟩ = (.ok (some w), bench'') ∧
      Work.insert .none u bench'' = (.ok v, bench₃) ∧ w ≠ v ∧
      w.tree = .bound ⟨.clamp 1, 0⟩ ∧ v.tree = .bound ⟨.clamp 0, 0⟩ := by
  intro tree
  have hrun : passes (Work.plant tree ⟨start.stores 0, #[]⟩) fun t bench =>
      passes (Work.contract t bench) fun r _ =>
        passes (Work.contract t ⟨start.stores 1, #[]⟩) fun r' bench'' =>
          r.any fun u => r'.any fun w => passes (Work.insert .none u bench'') fun v _ =>
            decide (w.id ≠ v.id ∧ w.tree = .bound ⟨.clamp 1, 0⟩ ∧ v.tree = .bound ⟨.clamp 0, 0⟩) := by
    decide +kernel
  obtain ⟨t, bench, hplant, hrun⟩ := exists_of_passes hrun
  obtain ⟨r, bench', hhere, hrun⟩ := exists_of_passes hrun
  obtain ⟨r', bench'', hthere, hrun⟩ := exists_of_passes hrun
  simp only [Option.any_eq_true] at hrun
  obtain ⟨u, rfl, w, rfl, hrun⟩ := hrun
  obtain ⟨v, bench₃, hinsert, hrun⟩ := exists_of_passes hrun
  obtain ⟨hid, hw, hv⟩ := of_decide_eq_true hrun
  exact ⟨t, u, w, v, bench, bench', bench'', bench₃, hplant, hhere, hthere, hinsert, fun h => hid (by rw [h]), hw, hv⟩

end World

end TermGraph
