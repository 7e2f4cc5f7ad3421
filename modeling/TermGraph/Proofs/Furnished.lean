import TermGraph.Proofs.World

/-!
# Worlds with given terms and rules

Whatever trees are written down, there is a world in which they have been planted, each in the store it is meant for.
Bound variables of such a tree count the binders of that store; a tree whose bound variables count other binders as
well is built node by node.
Whatever rules are written down, there is a world in which they have been planted, each in a store of its own, and
in which store 0 is left for terms.

## Main statements

* `World.stocked_has` — every tree that can be written down is the tree of a node of some reachable world
* `World.Reachable.builds` — in every reachable world, every tree may become the tree of a node of every store
* `World.furnished_hasRule` — **every rule that can be written down is a rule of some reachable world**
-/

namespace TermGraph

/-- A rule as it is written down: its sides, and the sides of its conditions if it has any. -/
structure Rule.Script where
  pattern : Tree Index
  template : Tree Index
  conditions : Option (List (Tree Index × Tree Index)) := none

/-- The rule, planted in a store of its own. -/
def Rule.ofScript (scope : Nat) (script : Script) : Rule :=
  match plant script.pattern script.template script.conditions { store := .empty scope } with
  | (.ok rule, _) => rule
  | (.error _, _) => .contraction

/-- A rule that has been planted is made of nodes of its store. -/
theorem Rule.ofScript_within (scope : Nat) (script : Script) :
    ∃ bench, plant script.pattern script.template script.conditions { store := .empty scope } =
      (.ok (ofScript scope script), bench) ∧ bench.store.Canonical ∧ bench.store.scope = scope ∧
        (ofScript scope script).Within .own bench.store := by
  have hcanon : ({ store := .empty scope } : Bench).store.Canonical := .empty scope
  have hyields := plant_yields hcanon script.pattern script.template script.conditions
  rcases hrun : plant script.pattern script.template script.conditions { store := .empty scope }
    with ⟨fault | rule, bench⟩
  · exact (hyields.error hrun).2.2.elim
  · obtain ⟨hcanon, hgrows, hwithin⟩ := hyields.ok hrun
    have hrule : ofScript scope script = rule := by rw [ofScript, hrun]
    exact ⟨bench, by rw [hrule], hcanon, Store.scope_eq_of_le hgrows.1, hrule ▸ hwithin⟩

/-- A tree that is planted in an empty store stands for a node of it. -/
theorem Work.plant_empty (scope : Nat) (tree : Tree Index) :
    working.Yields (plant tree) { store := .empty scope }
      (fun t bench => bench.store.Owns t ∧ t.tree = tree.planted scope) fun _ _ => False :=
  plant_yields (.empty scope) tree

namespace World

/-! ## Terms -/

/-- The world in which each of the trees has been planted in the store of the scope given with it. -/
def stocked : List (Nat × Tree Index) → World
  | [] => start
  | (scope, tree) :: trees => (stocked trees).step scope 0 (.plant tree)

theorem stocked_reachable : ∀ trees : List (Nat × Tree Index), (stocked trees).Reachable
  | [] => .start
  | _ :: trees => .step _ _ (stocked_reachable trees) (admits_plant _ _)

/-- The trees are there. -/
theorem stocked_has {scope : Nat} {tree : Tree Index} : ∀ {trees : List (Nat × Tree Index)}, (scope, tree) ∈ trees →
    ∃ t, (stocked trees).Has t ∧ t.scope = scope ∧ t.tree = tree.planted scope
  | planted :: trees, htree => by
    have hreach := stocked_reachable trees
    rcases List.mem_cons.mp htree with rfl | htree
    · exact hreach.planted scope 0 tree
    · obtain ⟨t, ht, hscope, htree⟩ := stocked_has htree
      exact ⟨t, ht.mono (hreach.sound.le_step _ 0 (admits_plant _ _)), hscope, htree⟩

/-- The trees are there as trees of nodes of the stores they are meant for. -/
theorem stocked_owns {scope : Nat} {tree : Tree Index} {trees : List (Nat × Tree Index)} (h : (scope, tree) ∈ trees) :
    ∃ t, ((stocked trees).stores scope).Owns t ∧ t.tree = tree.planted scope := by
  obtain ⟨t, ht, hscope, htree⟩ := stocked_has h
  exact ⟨t, ht.owns hscope, htree⟩

variable {world : World} {k : Nat}

/-- A shape over nodes of a store may be interned, and then it has a node. -/
theorem Reachable.interns (h : world.Reachable) (shape : Shape Term)
    (hc : ∀ c ∈ shape.children, (world.stores k).Owns c) :
    ∃ (later : World) (t : Term), later.Reachable ∧ world.stores k ≤ later.stores k ∧ (later.stores k).Owns t ∧
      t.tree = .ofShape (shape.map Term.tree) := by
  have hcanon : ({ store := world.stores k } : Bench).store.Canonical := (h.sound.stores k).1
  have hadmits : world.Admits (.intern shape) := by
    refine ⟨fun c hcm => ?_, by simp [Request.rules], fun _ _ hl => by cases hl⟩
    rw [Has, hcanon.scope_eq (hc c hcm), (h.sound.stores k).2]
    exact hc c hcm
  obtain ⟨t, bench, hrun, -, -, ht, hshape⟩ :=
    (Work.build_yields (Build.intern_yields .own hcanon shape hc)).succeeds
  refine ⟨world.step k 0 (.intern shape), t, .step k 0 h hadmits, h.sound.le_step k 0 hadmits k, ?_, ?_⟩
  · rw [step_store_of_work rfl hrun]
    exact ht
  · rw [Term.tree_eq_ofShape, hshape]

/-- Trees become nodes one after the other. -/
theorem Reachable.builds_all (h : world.Reachable) {trees : List (Tree Slot)}
    (hbuild : ∀ tree ∈ trees, ∀ {world : World}, world.Reachable → ∃ (later : World) (t : Term), later.Reachable ∧
      world.stores k ≤ later.stores k ∧ (later.stores k).Owns t ∧ t.tree = tree) :
    ∃ (later : World) (ts : List Term), later.Reachable ∧ world.stores k ≤ later.stores k ∧
      (∀ t ∈ ts, (later.stores k).Owns t) ∧ ts.map Term.tree = trees := by
  induction trees generalizing world with
  | nil => exact ⟨world, [], h, le_refl _, fun t ht => absurd ht List.not_mem_nil, rfl⟩
  | cons tree trees ih =>
    obtain ⟨world₁, t, h₁, hle₁, ht, htree⟩ := hbuild tree List.mem_cons_self h
    obtain ⟨world₂, ts, h₂, hle₂, hts, htrees⟩ := ih h₁ fun u hu => hbuild u (List.mem_cons_of_mem _ hu)
    refine ⟨world₂, t :: ts, h₂, le_trans hle₁ hle₂, List.forall_mem_cons.mpr ⟨ht.mono hle₂, hts⟩, ?_⟩
    rw [List.map_cons, htree, htrees]

/-- Every tree may become the tree of a node of every store, whatever binders its bound variables count. -/
theorem Reachable.builds (h : world.Reachable) (k : Nat) (tree : Tree Slot) :
    ∃ (later : World) (t : Term), later.Reachable ∧ world.stores k ≤ later.stores k ∧ (later.stores k).Owns t ∧
      t.tree = tree := by
  induction tree using Tree.induction generalizing world with
  | var name => exact h.interns (.var name) fun c hc => absurd hc List.not_mem_nil
  | const value => exact h.interns (.const value) fun c hc => absurd hc List.not_mem_nil
  | bound slot => exact h.interns (.bound slot.index slot.scope) fun c hc => absurd hc List.not_mem_nil
  | fn symbol args ih =>
    obtain ⟨world₁, ts, h₁, hle₁, hts, htrees⟩ := h.builds_all ih
    obtain ⟨world₂, t, h₂, hle₂, ht, htree⟩ := h₁.interns (.fn symbol ts) hts
    exact ⟨world₂, t, h₂, le_trans hle₁ hle₂, ht, by rw [htree, Shape.map, Tree.ofShape, htrees]⟩
  | app function argument ihf iha =>
    obtain ⟨world₁, f, h₁, hle₁, hf, hftree⟩ := ihf h
    obtain ⟨world₂, a, h₂, hle₂, ha, hatree⟩ := iha h₁
    obtain ⟨world₃, t, h₃, hle₃, ht, htree⟩ := h₂.interns (.app f a) (by
      simp only [Shape.children, List.forall_mem_cons]
      exact ⟨hf.mono hle₂, ha, fun c hc => absurd hc List.not_mem_nil⟩)
    exact ⟨world₃, t, h₃, le_trans hle₁ (le_trans hle₂ hle₃), ht,
      by rw [htree, Shape.map, Tree.ofShape, hftree, hatree]⟩
  | lambda body ih =>
    obtain ⟨world₁, b, h₁, hle₁, hb, hbtree⟩ := ih h
    obtain ⟨world₂, t, h₂, hle₂, ht, htree⟩ := h₁.interns (.lambda b) fun c hc => List.mem_singleton.mp hc ▸ hb
    exact ⟨world₂, t, h₂, le_trans hle₁ hle₂, ht, by rw [htree, Shape.map, Tree.ofShape, hbtree]⟩

/-! ## Rules -/

/-- The world in which the rules have been planted. Store 0 is left for terms. -/
def furnished : List Rule.Script → World
  | [] => start
  | script :: scripts => (furnished scripts).step (scripts.length + 1) 0
      (.plantRule script.pattern script.template script.conditions)

/-- The rules that are planted in that world. -/
def furniture : List Rule.Script → List Rule
  | [] => []
  | script :: scripts => .ofScript (scripts.length + 1) script :: furniture scripts

theorem furnished_reachable : ∀ scripts : List Rule.Script, (furnished scripts).Reachable
  | [] => .start
  | _ :: scripts => .step _ _ (furnished_reachable scripts) (admits_plantRule _ _ _ _)

/-- Only the stores of the rules are used. -/
theorem furnished_stores {k : Nat} : ∀ {scripts : List Rule.Script}, k = 0 ∨ scripts.length < k →
    (furnished scripts).stores k = .empty k
  | [], _ => rfl
  | script :: scripts, hk => by
    rw [List.length_cons] at hk
    rw [furnished, step_eq_put, put_stores_of_ne _ _ _ (by omega)]
    exact furnished_stores (hk.imp_right fun h => by omega)

/-- Only one normalizer has been used. -/
theorem furnished_caches {n : Nat} (hn : n ≠ 0) : ∀ scripts : List Rule.Script,
    (furnished scripts).caches n = .empty
  | [] => rfl
  | _ :: scripts => by
    rw [furnished, step_eq_put, put_caches_of_ne _ _ _ hn]
    exact furnished_caches hn scripts

/-- The rules are there. -/
theorem furnished_hasRule : ∀ {scripts : List Rule.Script} {rule : Rule}, rule ∈ furniture scripts →
    (furnished scripts).HasRule rule
  | script :: scripts, rule, hr => by
    have hadmits := admits_plantRule (furnished scripts) script.pattern script.template script.conditions
    have hsound := (furnished_reachable scripts).sound
    rcases List.mem_cons.mp hr with rfl | hr
    · obtain ⟨bench, hrun, hcanon, hscope, hwithin⟩ := Rule.ofScript_within (scripts.length + 1) script
      have hstore : (furnished (script :: scripts)).stores (scripts.length + 1) = bench.store := by
        rw [furnished, step_eq_put, put_stores_self]
        rw [furnished_stores (Or.inr (Nat.lt_succ_self _))]
        rw [Request.run, Request.bench_discard_work, hrun]
      have hhas : ∀ {t}, bench.store.Owns t → (furnished (script :: scripts)).Has t := by
        intro t ht
        rw [Has, hcanon.scope_eq ht, hscope, hstore]
        exact ht
      cases hrule : Rule.ofScript (scripts.length + 1) script with
      | pattern sides =>
        rw [hrule] at hwithin
        exact ⟨hhas hwithin.1, hhas hwithin.2⟩
      | conditional sides conditions howned =>
        rw [hrule] at hwithin
        exact ⟨⟨hhas hwithin.1.1, hhas hwithin.1.2⟩,
          fun c hc => ⟨hhas (hwithin.2 c hc).1, hhas (hwithin.2 c hc).2⟩⟩
      | contraction => trivial
    · exact (furnished_hasRule hr).mono (hsound.le_step _ _ hadmits)

/-- The rules remain when a term is planted. -/
theorem furnished_plant_hasRule {scripts : List Rule.Script} (tree : Tree Index) {rule : Rule}
    (hr : rule ∈ furniture scripts) : ((furnished scripts).step 0 0 (.plant tree)).HasRule rule :=
  (furnished_hasRule hr).mono ((furnished_reachable scripts).sound.le_step 0 0 (admits_plant _ tree))

/-- A rule that has been planted alone is there. -/
theorem furnished_plant_hasRule_of_eq {script : Rule.Script} {rule : Rule} (hrule : Rule.ofScript 1 script = rule)
    (tree : Tree Index) : ((furnished [script]).step 0 0 (.plant tree)).HasRule rule :=
  furnished_plant_hasRule tree (List.mem_singleton.mpr hrule.symm)

theorem furnished_plant_reachable (scripts : List Rule.Script) (tree : Tree Index) :
    ((furnished scripts).step 0 0 (.plant tree)).Reachable :=
  .step 0 0 (furnished_reachable scripts) (admits_plant _ tree)

/-- The term that is planted is a node of store 0. -/
theorem furnished_plant (scripts : List Rule.Script) {tree : Tree Index} {t : Term} {bench : Bench}
    (hrun : Work.plant tree { store := .empty 0 } = (.ok t, bench)) :
    ((furnished scripts).step 0 0 (.plant tree)).stores 0 = bench.store := by
  have hempty : (furnished scripts).stores 0 = .empty 0 := furnished_stores (Or.inl rfl)
  rw [← hempty] at hrun
  exact step_store_of_work rfl hrun 0

end World

end TermGraph
