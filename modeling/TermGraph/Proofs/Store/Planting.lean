import TermGraph.Proofs.Insertion.Insert
import TermGraph.Proofs.Store.Additions
import TermGraph.Proofs.Tree.Filling
import TermGraph.Store.Planting

/-!
# Planted trees

A planted tree gives a node of the store that unfolds to the tree, with every bound variable counting the
binders of the store. Planting never fails, and adds the subtrees that were not there yet.

## Main statements

* `Work.plant_planted` — **planting a tree gives the node that unfolds to it and adds its new subtrees**
-/

namespace TermGraph

/-- What a bound variable becomes in the store of the scope. -/
def plantSlot (scope : Nat) (_ : Nat) (index : Index) : Tree Slot := .bound ⟨index, scope⟩

/-- The tree as it is planted in the store of the scope. -/
def Tree.planted (scope : Nat) : Tree Index → Tree Slot := mapBound (plantSlot scope) 0

/-- What is planted does not depend on the binders above it. -/
theorem Tree.mapBound_plantSlot (scope depth : Nat) (t : Tree Index) :
    t.mapBound (plantSlot scope) depth = t.planted scope :=
  mapBound_add (k := depth) 0

theorem Tree.planted_fn (scope : Nat) (symbol : String) (args : List (Tree Index)) :
    planted scope (.fn symbol args) = .fn symbol (args.map (planted scope)) := by
  rw [planted, mapBound, mapBoundAll_eq_map]

theorem Tree.planted_lambda (scope : Nat) (body : Tree Index) :
    planted scope (.lambda body) = .lambda (body.planted scope) :=
  congrArg Tree.lambda (mapBound_plantSlot scope 1 body)

namespace Work

/-- The node has been planted for the tree: it unfolds to the tree, and what has been added to the store
are the new subtrees. -/
structure Planted (bench : Bench) (t : Tree Slot) (u : Term) (bench' : Bench) : Prop where
  owns : bench'.store.Owns u
  tree : u.tree = t
  adds : bench.store.Adds bench'.store t.postorder

theorem announced_yields {bench : Bench} {make : Build Term} {P : Term → Store → Prop}
    (hmake : building.Yields make bench.store P fun _ _ => False) :
    working.Yields (announced make) bench (fun t bench' => P t bench'.store) fun _ _ => False := by
  unfold announced
  refine .bind (build_yields hmake) ?_
  rintro t bench' h' - ht
  refine .bind (record_yields h' _) ?_
  rintro - bench'' h'' - ⟨hs, -⟩
  exact .pure h'' (hs ▸ ht)

/-- A node is announced once its children are there. -/
theorem announced_intern_yields {bench : Bench} (h : bench.store.Canonical) (shape : Shape Term)
    (hc : ∀ c ∈ shape.children, bench.store.Owns c) :
    working.Yields (announced (Build.intern shape)) bench
      (fun t bench' => bench'.store.Owns t ∧ t.tree = Tree.ofShape (shape.map Term.tree) ∧
        bench.store.Adds bench'.store [Tree.ofShape (shape.map Term.tree)])
      fun _ _ => False := by
  have hintern := (Build.intern_yields .own h shape hc).after
    (R := fun store' => bench.store.Adds store' [Tree.ofShape (shape.map Term.tree)]) (h.adds_intern hc)
  refine (announced_yields (hintern.mono_fault fun _ _ _ _ hf => hf.1)).mono ?_ fun _ _ _ _ hf => hf
  rintro t bench' - - ⟨⟨ht, hshape⟩, hadds⟩
  exact ⟨ht, by rw [Term.tree_eq_ofShape, hshape], hadds⟩

/-- A node is planted once the nodes for its children are. -/
theorem announced_planted {bench bench₁ : Bench} (h : bench₁.store.Canonical) (shape : Shape Term) {t : Tree Slot}
    (hc : ∀ c ∈ shape.children, bench₁.store.Owns c) (ht : t = Tree.ofShape (shape.map Term.tree))
    (hadds : bench.store.Adds bench₁.store (t.children.flatMap Tree.postorder)) :
    working.Yields (announced (Build.intern shape)) bench₁ (Planted bench t) fun _ _ => False := by
  refine (announced_intern_yields h shape hc).mono ?_ fun _ _ _ _ hf => hf
  rintro u bench₂ - - ⟨hu, hutree, hroot⟩
  refine ⟨hu, hutree.trans ht.symm, ?_⟩
  rw [Tree.postorder_eq, ← ht] at *
  exact hadds.trans hroot

mutual

theorem plant_planted : ∀ (t : Tree Index) {bench : Bench}, bench.store.Canonical →
    working.Yields (plant t) bench (Planted bench (t.planted bench.store.scope)) fun _ _ => False
  | .var name, bench, h => announced_planted h (.var name) (by simp [Shape.children]) rfl (.nil _)
  | .const value, bench, h => announced_planted h (.const value) (by simp [Shape.children]) rfl (.nil _)
  | .bound index, bench, h =>
    announced_planted h (.bound index bench.store.scope) (by simp [Shape.children]) rfl (.nil _)
  | .fn symbol args, bench, h => by
    rw [plant]
    refine .bind (plantAll_planted args h) ?_
    rintro us bench₁ h₁ - ⟨hown, htrees, hadds⟩
    rw [Tree.planted_fn]
    exact announced_planted h₁ (.fn symbol us) hown (congrArg _ htrees.symm) hadds
  | .app function argument, bench, h => by
    rw [plant]
    refine .bind (plant_planted function h) ?_
    rintro u bench₁ h₁ hle₁ ⟨hu, hutree, huadds⟩
    refine .bind (plant_planted argument h₁) ?_
    rintro v bench₂ h₂ hle₂ ⟨hv, hvtree, hvadds⟩
    rw [Store.scope_eq_of_le hle₁.1] at hvtree hvadds
    change working.Yields _ bench₂ (Planted bench (.app (function.planted _) (argument.planted _))) _
    refine announced_planted h₂ (.app u v) ?_ ?_ ?_
    · intro c hc
      simp only [Shape.children, List.mem_cons, List.not_mem_nil, or_false] at hc
      rcases hc with rfl | rfl
      · exact hu.mono hle₂.1
      · exact hv
    · rw [← hutree, ← hvtree]
      rfl
    · simpa [Tree.children, Tree.shape, Shape.children] using huadds.trans hvadds
  | .lambda body, bench, h => by
    rw [plant]
    refine .bind (plant_planted body h) ?_
    rintro u bench₁ h₁ - ⟨hu, hutree, huadds⟩
    rw [Tree.planted_lambda]
    refine announced_planted h₁ (.lambda u) (fun c hc => List.mem_singleton.mp hc ▸ hu) (hutree ▸ rfl) ?_
    simpa [Tree.children, Tree.shape, Shape.children] using huadds

theorem plantAll_planted : ∀ (ts : List (Tree Index)) {bench : Bench}, bench.store.Canonical →
    working.Yields (plantAll ts) bench
      (fun us bench' => (∀ u ∈ us, bench'.store.Owns u) ∧ us.map Term.tree = ts.map (Tree.planted bench.store.scope) ∧
        bench.store.Adds bench'.store ((ts.map (Tree.planted bench.store.scope)).flatMap Tree.postorder))
      fun _ _ => False
  | [], bench, h => by
    rw [plantAll]
    exact .pure h ⟨by simp, rfl, .nil _⟩
  | t :: ts, bench, h => by
    rw [plantAll]
    refine .bind (plant_planted t h) ?_
    rintro u bench₁ h₁ hle₁ ⟨hu, hutree, huadds⟩
    refine .bind (plantAll_planted ts h₁) ?_
    rintro us bench₂ h₂ hle₂ ⟨hus, htrees, hadds⟩
    rw [Store.scope_eq_of_le hle₁.1] at htrees hadds
    refine .pure h₂ ⟨?_, ?_, ?_⟩
    · intro v hv
      rcases List.mem_cons.mp hv with rfl | hv
      · exact hu.mono hle₂.1
      · exact hus v hv
    · rw [List.map_cons, List.map_cons, hutree, htrees]
    · rw [List.map_cons, List.flatMap_cons]
      exact huadds.trans hadds

end

/-- Planting a tree gives the node that unfolds to it. -/
theorem plant_yields {bench : Bench} (h : bench.store.Canonical) (t : Tree Index) :
    working.Yields (plant t) bench
      (fun u bench' => bench'.store.Owns u ∧ u.tree = t.planted bench.store.scope) fun _ _ => False :=
  (plant_planted t h).mono (fun _ _ _ _ hu => ⟨hu.owns, hu.tree⟩) fun _ _ _ _ hf => hf

end Work

end TermGraph
