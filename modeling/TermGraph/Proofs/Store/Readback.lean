import TermGraph.Proofs.Furnished

/-!
# Reading planted trees back

A node is read back as the tree from which it could have been planted: a bound variable that counts the
binders of the store becomes a bare index, and a term with any other bound variable has not been planted. What
planting adds to a store can be told from the trees that are read back from its nodes, whatever else the store has
come to hold.

## Main statements

* `Tree.unplanted?_eq_some_iff` — reading back and planting are inverse to each other
* `World.plants_exactly` — **the node of a planted tree, and what planting it adds**
-/

namespace TermGraph

namespace Tree

mutual

/-- The tree with bare indices, if its bound variables all count the binders of the scope. -/
def unplanted? (scope : Nat) : Tree Slot → Option (Tree Index)
  | .var name => some (.var name)
  | .const value => some (.const value)
  | .fn symbol args => (unplantedAll? scope args).map (.fn symbol)
  | .app function argument =>
    (unplanted? scope function).bind fun f => (unplanted? scope argument).map (.app f)
  | .lambda body => (unplanted? scope body).map .lambda
  | .bound slot => if slot.scope = scope then some (.bound slot.index) else none

/-- The trees with bare indices. -/
def unplantedAll? (scope : Nat) : List (Tree Slot) → Option (List (Tree Index))
  | [] => some []
  | t :: ts => (unplanted? scope t).bind fun r => (unplantedAll? scope ts).map (r :: ·)

end

variable {scope : Nat}

mutual

theorem planted_of_unplanted? : ∀ {t : Tree Slot} {r : Tree Index}, t.unplanted? scope = some r → r.planted scope = t
  | .var _, _, h | .const _, _, h => by
    cases h
    rfl
  | .fn symbol args, r, h => by
    rw [unplanted?, Option.map_eq_some_iff] at h
    obtain ⟨rs, hrs, rfl⟩ := h
    rw [planted_fn, map_planted_of_unplantedAll? hrs]
  | .app function argument, r, h => by
    simp only [unplanted?, Option.bind_eq_some_iff, Option.map_eq_some_iff] at h
    obtain ⟨f, hf, a, ha, rfl⟩ := h
    exact congrArg₂ app (planted_of_unplanted? hf) (planted_of_unplanted? ha)
  | .lambda body, r, h => by
    rw [unplanted?, Option.map_eq_some_iff] at h
    obtain ⟨b, hb, rfl⟩ := h
    rw [planted_lambda, planted_of_unplanted? hb]
  | .bound slot, r, h => by
    rw [unplanted?] at h
    split at h
    · next hscope =>
      cases h
      rw [← hscope]
      rfl
    · cases h

theorem map_planted_of_unplantedAll? : ∀ {ts : List (Tree Slot)} {rs : List (Tree Index)},
    unplantedAll? scope ts = some rs → rs.map (planted scope) = ts
  | [], rs, h => by
    cases h
    rfl
  | t :: ts, rs, h => by
    simp only [unplantedAll?, Option.bind_eq_some_iff, Option.map_eq_some_iff] at h
    obtain ⟨r, hr, rs, hrs, rfl⟩ := h
    rw [List.map_cons, planted_of_unplanted? hr, map_planted_of_unplantedAll? hrs]

end

@[simp] theorem unplanted?_planted (r : Tree Index) : (r.planted scope).unplanted? scope = some r := by
  induction r using Tree.induction with
  | var x => rfl
  | const a => rfl
  | bound index => exact if_pos rfl
  | app f a ihf iha =>
    change unplanted? scope (.app (f.planted scope) (a.planted scope)) = _
    rw [unplanted?, ihf, iha]
    rfl
  | lambda body ih =>
    rw [planted_lambda, unplanted?, ih]
    rfl
  | fn symbol args ih =>
    have hargs : unplantedAll? scope (args.map (planted scope)) = some args := by
      induction args with
      | nil => rfl
      | cons t ts iht =>
        rw [List.map_cons, unplantedAll?, ih t List.mem_cons_self,
          iht fun u hu => ih u (List.mem_cons_of_mem _ hu)]
        rfl
    rw [planted_fn, unplanted?, hargs]
    rfl

/-- **Reading back undoes planting.** -/
theorem unplanted?_eq_some_iff {t : Tree Slot} {r : Tree Index} :
    t.unplanted? scope = some r ↔ t = r.planted scope :=
  ⟨fun h => (planted_of_unplanted? h).symm, fun h => h ▸ unplanted?_planted r⟩

theorem planted_injective (scope : Nat) : Function.Injective (planted scope) := fun r s h => by
  have hs := congrArg (unplanted? scope) h
  rw [unplanted?_planted, unplanted?_planted] at hs
  exact Option.some.inj hs

/-- The subtrees of a planted tree are the planted subtrees. -/
theorem postorder_planted (r : Tree Index) : (r.planted scope).postorder = r.postorder.map (planted scope) := by
  induction r using Tree.induction with
  | var x => rfl
  | const a => rfl
  | bound index => rfl
  | app f a ihf iha =>
    change postorder (.app (f.planted scope) (a.planted scope)) = _
    rw [postorder, ihf, iha, postorder, List.map_append, List.map_append]
    rfl
  | lambda body ih =>
    rw [planted_lambda, postorder, ih, postorder, List.map_append, List.map_singleton, planted_lambda]
  | fn symbol args ih =>
    rw [planted_fn, postorder, postorderAll_eq_flatMap, postorder, postorderAll_eq_flatMap, List.map_append,
      List.map_singleton, planted_fn, List.flatMap_map, List.map_flatMap, List.flatMap_congr ih]

end Tree

/-! ## What planting adds -/

namespace Store

/-- The trees that are read back from the nodes, in order of creation. -/
def plantedTrees (store : Store) : List (Tree Index) :=
  store.nodes.toList.filterMap fun t => t.tree.unplanted? store.scope

theorem planted_mem_trees_iff {store : Store} {r : Tree Index} :
    r.planted store.scope ∈ store.trees ↔ r ∈ store.plantedTrees := by
  simp only [trees, plantedTrees, List.mem_map, List.mem_filterMap, Tree.unplanted?_eq_some_iff]

/-- The new subtrees of a planted tree can be told from the trees that have been read back. -/
theorem Adds.planted {store store' : Store} {r : Tree Index}
    (h : store.Adds store' (r.planted store.scope).postorder) (hle : store ≤ store') :
    ∃ added, store'.nodes.toList = store.nodes.toList ++ added ∧
      added.map (fun t => t.tree.unplanted? store.scope) = (unlisted store.plantedTrees r.postorder).map some := by
  obtain ⟨added, hadded⟩ := prefix_of_le hle
  have htrees : added.map Term.tree = (unlisted store.plantedTrees r.postorder).map (Tree.planted store.scope) := by
    rw [Adds, trees, ← hadded, List.map_append, Tree.postorder_planted] at h
    rw [List.append_cancel_left h]
    exact unlisted_map (Tree.planted_injective _) fun s _ => planted_mem_trees_iff
  refine ⟨added, hadded.symm, ?_⟩
  have hread := congrArg (List.map (Tree.unplanted? store.scope)) htrees
  simpa only [List.map_map, Function.comp_def, Tree.unplanted?_planted] using hread

end Store

namespace World

variable {world : World}

/-- **Planting is exact.** In every reachable world, planting a tree gives a node from which the tree is read back,
and appends one node for each distinct subtree that is not read back from a node yet, in the order in which a
traversal of the tree from left to right first completes them. Whatever is requested after that, planting a tree
there again gives the same node for the same tree only, and then appends nothing. -/
theorem plants_exactly (h : world.Reachable) (scope : Nat) (tree : Tree Index) (journal : Journal) :
    ∃ t bench added, Work.plant tree ⟨world.stores scope, journal⟩ = (.ok t, bench) ∧
      bench.store.Owns t ∧ t.tree.unplanted? scope = some tree ∧
      bench.store.nodes.toList = (world.stores scope).nodes.toList ++ added ∧
      added.map (fun u => u.tree.unplanted? scope) =
        (unlisted (world.stores scope).plantedTrees tree.postorder).map some ∧
      ∀ later : World, later.Reachable → bench.store ≤ later.stores scope → ∀ (tree' : Tree Index) (journal' : Journal),
        ∃ t' bench', Work.plant tree' ⟨later.stores scope, journal'⟩ = (.ok t', bench') ∧
          (t' = t ↔ tree' = tree) ∧ (tree' = tree → bench'.store = later.stores scope) := by
  have hstores : ∀ {w : World} (journal : Journal), w.Reachable →
      (⟨w.stores scope, journal⟩ : Bench).store.Canonical ∧ (w.stores scope).scope = scope :=
    fun _ hw => hw.sound.stores scope
  obtain ⟨hcanon, hscope⟩ := hstores journal h
  obtain ⟨t, bench, hrun, -, hle, ht⟩ := (Work.plant_planted tree hcanon).succeeds
  obtain ⟨added, hadded, htrees⟩ := ht.adds.planted hle.1
  have htree : t.tree = tree.planted scope := by rw [ht.tree, hscope]
  rw [hscope] at htrees
  refine ⟨t, bench, added, hrun, ht.owns, Tree.unplanted?_eq_some_iff.mpr htree, hadded, htrees, ?_⟩
  intro later hlater hgrown tree' journal'
  obtain ⟨hcanon', hscope'⟩ := hstores journal' hlater
  obtain ⟨t', bench', hrun', hbench', hle', ht'⟩ := (Work.plant_planted tree' hcanon').succeeds
  have htree' : t'.tree = tree'.planted scope := by rw [ht'.tree, hscope']
  have howns : bench'.store.Owns t := ht.owns.mono (le_trans hgrown hle'.1)
  refine ⟨t', bench', hrun', ?_, ?_⟩
  · rw [← hbench'.tree_eq_iff ht'.owns howns, htree', htree, (Tree.planted_injective scope).eq_iff]
  · rintro rfl
    refine hcanon'.eq_of_adds hbench' hle'.1 ht'.adds fun s hs => ?_
    rw [hscope', ← hscope] at hs
    exact Store.trees_subset_of_le hgrown (ht.adds.mem_trees s hs)

/-- After `g(%0)`, planting `f(a, g(%0), a)` appends the nodes of `a` and of the whole; planting it once more appends
nothing. -/
theorem plants_exactly_twice :
    let g : Tree Index := .fn "g" [.bound (.clamp 0)]
    let tree : Tree Index := .fn "f" [.fn "a" [], g, .fn "a" []]
    ∃ (world later : World) (t : Term) (bench bench' : Bench) (added : List Term), world.Reachable ∧ later.Reachable ∧
      Work.plant tree ⟨world.stores 0, #[]⟩ = (.ok t, bench) ∧
      bench.store.nodes.toList = (world.stores 0).nodes.toList ++ added ∧
      added.map (fun u => u.tree.unplanted? 0) = [some (.fn "a" []), some tree] ∧
      bench.store = later.stores 0 ∧
      Work.plant tree ⟨later.stores 0, #[]⟩ = (.ok t, bench') ∧ bench'.store = later.stores 0 := by
  intro g tree
  have hreach : (start.step 0 0 (.plant g)).Reachable := .step 0 0 .start (admits_plant _ _)
  obtain ⟨t, bench, added, hrun, -, -, hadded, htrees, hagain⟩ := plants_exactly hreach 0 tree #[]
  obtain ⟨later, hlater, -, hstores, -⟩ := hreach.plants 0 hrun
  have hsame : bench.store = later.stores 0 := by rw [hstores, Function.update_self]
  obtain ⟨t', bench', hrun', hiff, hkept⟩ := hagain later hlater (le_of_eq hsame) tree #[]
  obtain rfl : t' = t := hiff.mpr rfl
  have hnew : unlisted ((start.step 0 0 (.plant g)).stores 0).plantedTrees tree.postorder = [.fn "a" [], tree] := by
    decide +kernel
  rw [hnew] at htrees
  exact ⟨_, later, t', bench, bench', added, hreach, hlater, hrun, hadded, htrees, hsame, hrun', hkept rfl⟩

end World

end TermGraph
