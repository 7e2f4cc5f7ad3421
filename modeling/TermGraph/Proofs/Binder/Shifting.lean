import TermGraph.Proofs.Furnished
import TermGraph.Proofs.Tree.Shifting

/-!
# Shifting and substitution in a store

On the way through a term a store leaves nodes alone whose free depth is small enough, remembers what it has been
through and raises what it puts in place one binder at a time. What comes out is the node of the plain descent, which
looks at every bound variable and goes by its index alone. The laws of that descent are laws of nodes: nodes with
equal trees are the same.

## Main statements

* `World.moves_by_index` — **the trees of a shift and of a substitution**
* `World.shifts_cancel` — **what is shifted up comes back**, whether it is shifted down again, substituted in or
  contracted
-/

namespace TermGraph.World

variable {world : World} {k : Nat} {t r a : Term}

/-- **The trees of a shift and of a substitution.** In every reachable world, let `t` and `r` be nodes of a store such
that the last index does not occur in `t`. Neither shifting `t` nor substituting `r` in it fails. The shift gives the
node whose tree is that of `t` in which, below `depth` of its lambdas, an index of `scope` that is at least
`start + depth` has been moved by `delta`, saturating at the ends of the range. The substitution gives the node whose
tree is that of `t` in which, below `depth` of its lambdas, the index `start + depth` of `scope` has become `r` with
its free indices of the store raised by `depth`. Everything else stays. -/
theorem moves_by_index (h : world.Reachable) (ht : (world.stores k).Owns t) (hr : (world.stores k).Owns r)
    (hlast : t.tree.Every (fun _ slot => slot.index ≠ Index.last) 0) (scope : Nat) (delta : Int) (start : Index) :
    (∃ u store, Build.shift t scope delta start (world.stores k) = (.ok u, store) ∧ store.Owns u ∧
      u.tree = t.tree.mapBound (fun depth slot =>
        .bound (if slot.scope = scope ∧ start.val + depth ≤ slot.index.val then ⟨slot.index.move delta, scope⟩
          else slot)) 0) ∧
    ∃ u store, Build.substitute t scope start r (world.stores k) = (.ok u, store) ∧ store.Owns u ∧
      u.tree = t.tree.mapBound (fun depth slot =>
        if slot.scope = scope ∧ slot.index.val = start.val + depth then r.tree.mapBound (fun d s =>
          .bound (if s.scope = k ∧ d ≤ s.index.val then ⟨s.index.move depth, k⟩ else s)) 0
        else .bound slot) 0 := by
  obtain ⟨hcanon, hscope⟩ := h.sound.stores k
  obtain ⟨u, store, hrun, -, -, hu, hutree⟩ := (Build.shift_yields .own hcanon ht scope delta start).succeeds
  obtain ⟨v, store', hrun', -, -, hv, hvtree⟩ :=
    (Build.substitute_yields (C := .own) hcanon ht hr scope start).succeeds
  refine ⟨⟨u, store, hrun, hu, ?_⟩, v, store', hrun', hv, ?_⟩
  · rw [hutree, Tree.shift_eq_mapBound start.val hlast]
    rfl
  · rw [hvtree, hscope, Tree.substitute_eq_mapBound start.val r.tree hlast]
    rfl

/-- In `f(%0, λ.p(%0, %1, %3))` the index 1 below the lambda is the free index 0. -/
theorem moves_below_lambda :
    let trees : List (Nat × Tree Index) := [
      (0, .fn "f" [.bound (.clamp 0), .lambda (.fn "p" [.bound (.clamp 0), .bound (.clamp 1), .bound (.clamp 3)])]),
      (0, .fn "g" [.bound (.clamp 2), .lambda (.bound (.clamp 0))])]
    ∃ t r u v store store', ((stocked trees).stores 0).Owns t ∧ ((stocked trees).stores 0).Owns r ∧
      t.tree.Every (fun _ slot => slot.index ≠ Index.last) 0 ∧
      Build.shift t 0 (-2) (.clamp 1) ((stocked trees).stores 0) = (.ok u, store) ∧ store.Owns u ∧
      u.tree = .fn "f" [.bound ⟨.clamp 0, 0⟩,
        .lambda (.fn "p" [.bound ⟨.clamp 0, 0⟩, .bound ⟨.clamp 1, 0⟩, .bound ⟨.clamp 1, 0⟩])] ∧
      Build.substitute t 0 Index.zero r ((stocked trees).stores 0) = (.ok v, store') ∧ store'.Owns v ∧
      v.tree = .fn "f" [.fn "g" [.bound ⟨.clamp 2, 0⟩, .lambda (.bound ⟨.clamp 0, 0⟩)],
        .lambda (.fn "p" [.bound ⟨.clamp 0, 0⟩, .fn "g" [.bound ⟨.clamp 3, 0⟩, .lambda (.bound ⟨.clamp 0, 0⟩)],
          .bound ⟨.clamp 3, 0⟩])] := by
  intro trees
  have hreach := stocked_reachable trees
  obtain ⟨t, ht, httree⟩ := stocked_owns (show (0, _) ∈ trees from List.mem_cons_self)
  obtain ⟨r, hr, hrtree⟩ := stocked_owns (show (0, _) ∈ trees from List.mem_cons_of_mem _ List.mem_cons_self)
  have hlast : t.tree.Every (fun _ slot => slot.index ≠ Index.last) 0 := by
    rw [httree]
    decide
  obtain ⟨u, store, hrun, hu, hutree⟩ := (moves_by_index hreach ht hr hlast 0 (-2) (.clamp 1)).1
  obtain ⟨v, store', hrun', hv, hvtree⟩ := (moves_by_index hreach ht hr hlast 0 0 Index.zero).2
  refine ⟨t, r, u, v, store, store', ht, hr, hlast, hrun, hu, ?_, hrun', hv, ?_⟩
  · rw [hutree, httree]
    rfl
  · rw [hvtree, httree, hrtree]
    rfl

/-- **What is shifted up comes back.** In every reachable world, let `t` and `a` be nodes of a store. As long as no
index leaves the range on the way up, shifting `t` up and down again gives `t`; once `t` has been shifted up by one,
nothing takes the place of the index it was shifted from; and `t` lifted below a binder of the store contracts to `t`
with every argument. -/
theorem shifts_cancel (h : world.Reachable) (ht : (world.stores k).Owns t) (ha : (world.stores k).Owns a)
    (scope n : Nat) (start : Index) :
    (t.tree.Roomy scope n start.val → ∃ u store₁ store₂,
      Build.shift t scope n start (world.stores k) = (.ok u, store₁) ∧
      Build.shift u scope (-n) start store₁ = (.ok t, store₂)) ∧
    (t.tree.Roomy scope 1 start.val → ∃ u store₁ store₂,
      Build.shift t scope 1 start (world.stores k) = (.ok u, store₁) ∧
      Build.substitute u scope start a store₁ = (.ok u, store₂)) ∧
    (t.tree.Roomy k 1 0 → ∃ u store₁ store₂,
      Build.shift t k 1 Index.zero (world.stores k) = (.ok u, store₁) ∧
      Build.contract u a store₁ = (.ok t, store₂)) := by
  obtain ⟨hcanon, hscope⟩ := h.sound.stores k
  refine ⟨fun hroom => ?_, fun hroom => ?_, fun hroom => ?_⟩
  · obtain ⟨u, store₁, hrun₁, hcanon₁, hle₁, hu, hutree⟩ :=
      (Build.shift_yields .own hcanon ht scope n start).succeeds
    obtain ⟨v, store₂, hrun₂, hcanon₂, hle₂, hv, hvtree⟩ :=
      (Build.shift_yields .own hcanon₁ hu scope (-n) start).succeeds
    obtain rfl : v = t := hcanon₂.eq_of_tree_eq hv ((ht.mono hle₁).mono hle₂)
      (by rw [hvtree, hutree, Tree.shift_shift_neg hroom])
    exact ⟨u, store₁, store₂, hrun₁, hrun₂⟩
  · obtain ⟨u, store₁, hrun₁, hcanon₁, hle₁, hu, hutree⟩ :=
      (Build.shift_yields .own hcanon ht scope 1 start).succeeds
    obtain ⟨v, store₂, hrun₂, hcanon₂, hle₂, hv, hvtree⟩ :=
      (Build.substitute_yields (C := .own) hcanon₁ hu (ha.mono hle₁) scope start).succeeds
    obtain rfl : v = u := hcanon₂.eq_of_tree_eq hv (hu.mono hle₂)
      (by rw [hvtree, hutree, Tree.substitute_shift_one _ hroom])
    exact ⟨v, store₁, store₂, hrun₁, hrun₂⟩
  · obtain ⟨u, store₁, hrun₁, hcanon₁, hle₁, hu, hutree⟩ :=
      (Build.shift_yields .own hcanon ht k 1 Index.zero).succeeds
    obtain ⟨v, store₂, hrun₂, hcanon₂, hle₂, hv, hvtree⟩ :=
      (Build.contract_yields (C := .own) hcanon₁ hu (ha.mono hle₁)).succeeds
    obtain rfl : v = t := hcanon₂.eq_of_tree_eq hv ((ht.mono hle₁).mono hle₂)
      (by rw [hvtree, hutree, Store.scope_eq_of_le hle₁, hscope, Index.val_zero, Tree.contract_shift_one _ hroom])
    exact ⟨u, store₁, store₂, hrun₁, hrun₂⟩

/-- In `f(%0, λ.p(%0, %1, %4294967292))` there is room to shift by three from index 1 on, and the last index is
reached. -/
theorem shifts_cancel_at_limit :
    let trees : List (Nat × Tree Index) := [
      (0, .fn "f" [.bound (.clamp 0),
        .lambda (.fn "p" [.bound (.clamp 0), .bound (.clamp 1), .bound (.clamp 4294967292)])]),
      (0, .fn "g" [.bound .last, .lambda (.bound (.clamp 1))])]
    ∃ t a u v w store₁ store₂ store₃ store₄ store₅ store₆,
      ((stocked trees).stores 0).Owns t ∧ ((stocked trees).stores 0).Owns a ∧
      t.tree.Roomy 0 3 1 ∧ ¬t.tree.Roomy 0 4 1 ∧ t.tree.Roomy 0 1 1 ∧ t.tree.Roomy 0 1 0 ∧
      Build.shift t 0 3 (.clamp 1) ((stocked trees).stores 0) = (.ok u, store₁) ∧
      Build.shift u 0 (-3) (.clamp 1) store₁ = (.ok t, store₂) ∧
      Build.shift t 0 1 (.clamp 1) ((stocked trees).stores 0) = (.ok v, store₃) ∧
      Build.substitute v 0 (.clamp 1) a store₃ = (.ok v, store₄) ∧
      Build.shift t 0 1 Index.zero ((stocked trees).stores 0) = (.ok w, store₅) ∧
      Build.contract w a store₅ = (.ok t, store₆) := by
  intro trees
  have hreach := stocked_reachable trees
  obtain ⟨t, ht, httree⟩ := stocked_owns (show (0, _) ∈ trees from List.mem_cons_self)
  obtain ⟨a, ha, -⟩ := stocked_owns (show (0, _) ∈ trees from List.mem_cons_of_mem _ List.mem_cons_self)
  have hthree : t.tree.Roomy 0 3 1 := by
    rw [httree]
    decide
  have hfour : ¬t.tree.Roomy 0 4 1 := by
    rw [httree]
    decide
  have hone : t.tree.Roomy 0 1 1 := by
    rw [httree]
    decide
  have hown : t.tree.Roomy 0 1 0 := by
    rw [httree]
    decide
  obtain ⟨hdown, hgone, hback⟩ := shifts_cancel hreach ht ha 0 3 (.clamp 1)
  obtain ⟨u, store₁, store₂, hrun₁, hrun₂⟩ := hdown hthree
  obtain ⟨v, store₃, store₄, hrun₃, hrun₄⟩ := hgone hone
  obtain ⟨w, store₅, store₆, hrun₅, hrun₆⟩ := hback hown
  exact ⟨t, a, u, v, w, store₁, store₂, store₃, store₄, store₅, store₆, ht, ha, hthree, hfour,
    hone, hown, hrun₁, hrun₂, hrun₃, hrun₄, hrun₅, hrun₆⟩

end TermGraph.World
