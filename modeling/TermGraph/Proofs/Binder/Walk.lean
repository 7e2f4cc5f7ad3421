import TermGraph.Binder.Walk
import TermGraph.Proofs.Store.Building
import TermGraph.Proofs.Tree.Binding

/-!
# What a walk below binders computes

A walk gives a node for the tree with its bound variables replaced, whatever the walk leaves alone and
whatever it has on record. The nodes it is given and those it makes are in custody, so with the store's
own nodes the walk never fails.

## Main statement

* `Build.walk_yields` — **the walk of a term unfolds to the tree with its bound variables replaced**
-/

namespace TermGraph

/-! ## Nodes without a free index at a depth -/

theorem Term.freeDepth_le_depthOf_fn {args : List Term} {c : Term} (hc : c ∈ args) :
    c.freeDepth.val ≤
      (args.foldl (fun depth arg => Index.deeper depth arg.freeDepth) Index.zero).val := by
  have hfold : ∀ (l : List Term) (start : Index),
      start.val ≤ (l.foldl (fun depth arg => Index.deeper depth arg.freeDepth) start).val ∧
      ∀ a ∈ l, a.freeDepth.val ≤
        (l.foldl (fun depth arg => Index.deeper depth arg.freeDepth) start).val := by
    intro l
    induction l with
    | nil => intro start; exact ⟨Nat.le_refl _, fun a ha => absurd ha (by simp)⟩
    | cons b l ih =>
      intro start
      obtain ⟨h1, h2⟩ := ih (Index.deeper start b.freeDepth)
      rw [Index.val_deeper] at h1
      refine ⟨Nat.le_trans (Nat.le_max_left _ _) h1, fun a ha => ?_⟩
      rcases List.mem_cons.mp ha with rfl | ha
      · exact Nat.le_trans (Nat.le_max_right _ _) h1
      · exact h2 a ha
  exact (hfold args Index.zero).2 c hc

/-- A function on bound variables that leaves alone what is bound. -/
def Tree.LeavesBound (f : Nat → Slot → Tree Slot) : Prop :=
  ∀ (depth : Nat) (index : Index) (owner : Nat),
    (Index.above index).val ≤ depth → f depth ⟨index, owner⟩ = .bound ⟨index, owner⟩

section

variable (C : Custody) {store : Store} {f : Nat → Slot → Tree Slot}

mutual

/-- Replacing bound variables does nothing to a node none of whose free indices reaches so deep. -/
theorem Term.mapBound_tree_eq_self (h : store.Canonical) (hf : Tree.LeavesBound f) :
    ∀ (t : Term) (depth : Nat), C.has store t → t.freeDepth.val ≤ depth →
      t.tree.mapBound f depth = t.tree
  | .var _ _, _, _, _ => rfl
  | .const _ _, _, _, _ => rfl
  | t@(.fn _ symbol args), depth, ht, hd => by
    rw [C.depth h ht] at hd
    rw [Term.tree, Tree.mapBound]
    congr 1
    refine mapBoundAll_trees_eq_self h hf args depth (fun c hc => C.child h ht hc) fun c hc => ?_
    exact Nat.le_trans (freeDepth_le_depthOf_fn hc) hd
  | t@(.app _ function argument), depth, ht, hd => by
    rw [C.depth h ht] at hd
    simp only [Term.shape, Term.depthOf, Index.val_deeper] at hd
    rw [Term.tree, Tree.mapBound,
      mapBound_tree_eq_self h hf function depth (C.child h ht (by simp [children, shape,
        Shape.children])) (by omega),
      mapBound_tree_eq_self h hf argument depth (C.child h ht (by simp [children, shape,
        Shape.children])) (by omega)]
  | t@(.lambda _ body), depth, ht, hd => by
    rw [C.depth h ht] at hd
    simp only [Term.shape, Term.depthOf, Index.val_below] at hd
    rw [Term.tree, Tree.mapBound,
      mapBound_tree_eq_self h hf body (depth + 1) (C.child h ht (by simp [children, shape,
        Shape.children])) (by omega)]
  | t@(.bound _ index owner), depth, ht, hd => by
    rw [C.depth h ht] at hd
    exact hf depth index owner hd

theorem Term.mapBoundAll_trees_eq_self (h : store.Canonical) (hf : Tree.LeavesBound f) :
    ∀ (ts : List Term) (depth : Nat), (∀ t ∈ ts, C.has store t) →
      (∀ t ∈ ts, t.freeDepth.val ≤ depth) → Tree.mapBoundAll f depth (trees ts) = trees ts
  | [], _, _, _ => rfl
  | t :: ts, depth, ht, hd => by
    rw [trees, Tree.mapBoundAll,
      mapBound_tree_eq_self h hf t depth (ht t List.mem_cons_self) (hd t List.mem_cons_self),
      mapBoundAll_trees_eq_self h hf ts depth (fun c hc => ht c (List.mem_cons_of_mem _ hc))
        fun c hc => hd c (List.mem_cons_of_mem _ hc)]

end

end

/-! ## The walk -/

/-- Every recorded node unfolds to what the tree of the node it is recorded for becomes. -/
def Recorded (C : Custody) (f : Nat → Slot → Tree Slot) (store : Store) (memo : SightMap Term) :
    Prop :=
  ∀ id (depth : Index) r, memo[(id, depth)]? = some r →
    ∃ t, C.has store t ∧ t.id = id ∧ C.has store r ∧ r.tree = t.tree.mapBound f depth.val

/-- From below `start` binders on, what takes the place of bound variables unfolds to what `f` says, as
long as `J` holds of what the placing keeps for itself. -/
structure Placing.Meets {ρ : Type} (place : Placing ρ) (C : Custody) (f : Nat → Slot → Tree Slot)
    (start : Nat) (J : Store → ρ → Prop) : Prop where
  mono : ∀ {store store' : Store} {r : ρ}, store ≤ store' → J store r → J store' r
  bound : Tree.LeavesBound f
  stays : ∀ {depth index : Index} {owner : Nat}, place depth index owner = none →
    f depth.val ⟨index, owner⟩ = .bound ⟨index, owner⟩
  takes : ∀ {depth index : Index} {owner : Nat} {make : StateT ρ Build Term} {store : Store} {r : ρ},
    place depth index owner = some make → start ≤ depth.val →
    depth.val < (Index.above index).val → store.Canonical → J store r →
    building.Yields (make r) store
      (fun p store' => C.has store' p.1 ∧ p.1.tree = f depth.val ⟨index, owner⟩ ∧ J store' p.2)
      fun fault _ => C.fails fault

variable {ρ : Type} {C : Custody} {f : Nat → Slot → Tree Slot} {J : Store → ρ → Prop}
  {store store' : Store} {memo : SightMap Term} {r : ρ}

theorem Recorded.empty : Recorded C f store ∅ := fun id depth r h => by simp at h

theorem Recorded.mono (h : store ≤ store') (hm : Recorded C f store memo) :
    Recorded C f store' memo := by
  intro id depth u hu
  obtain ⟨t, ht, hid, hhas, htree⟩ := hm id depth u hu
  exact ⟨t, C.mono h ht, hid, C.mono h hhas, htree⟩

theorem Recorded.insert {t u : Term} {depth : Index} (hm : Recorded C f store memo)
    (ht : C.has store t) (hu : C.has store u) (htree : u.tree = t.tree.mapBound f depth.val) :
    Recorded C f store (memo.insert (t.id, depth) u) := by
  intro id d v hv
  rw [SightMap.getElem?_insert] at hv
  split at hv
  · next he =>
    cases he
    cases hv
    exact ⟨t, ht, rfl, hu, htree⟩
  · exact hm id d v hv

/-- The walk has come to a node that unfolds to `tree` with its bound variables replaced. -/
def Walked (C : Custody) (f : Nat → Slot → Tree Slot) (J : Store → ρ → Prop) (tree : Tree Slot)
    (depth : Index) (p : (Term × SightMap Term) × ρ) (store : Store) : Prop :=
  C.has store p.1.1 ∧ p.1.1.tree = tree.mapBound f depth.val ∧ Recorded C f store p.1.2 ∧ J store p.2

namespace Build

variable {place : Placing ρ} {start : Nat}

theorem remembered_yields (hf : Tree.LeavesBound f) {t : Term} {depth : Index} {make : Walking ρ Term}
    (h : store.Canonical) (ht : C.has store t) (hm : Recorded C f store memo) (hr : J store r)
    (hmake : depth.val < t.freeDepth.val →
      building.Yields (make memo r) store (Walked C f J t.tree depth) fun fault _ => C.fails fault) :
    building.Yields (remembered t depth make memo r) store (Walked C f J t.tree depth)
      fun fault _ => C.fails fault := by
  unfold remembered
  split
  · next hd =>
    have hself := Term.mapBound_tree_eq_self C h hf t depth.val ht hd
    exact .pure (a := ((t, memo), r)) h ⟨ht, hself.symm, hm, hr⟩
  · next hd =>
    refine .readRecord₂ ?_
    cases hres : memo[(t.id, depth)]? with
    | some result =>
      obtain ⟨u, hu, hid, hhas, htree⟩ := hm _ _ _ hres
      rw [C.unique h hu ht hid] at htree
      exact .pure (a := ((result, memo), r)) h ⟨hhas, htree, hm, hr⟩
    | none =>
      refine .bindState₂ (hmake (by omega)) ?_
      rintro result memo' r' store' hcanon hle ⟨hhas, htree, hm', hr'⟩
      refine .pure (a := ((result, memo'.insert (t.id, depth) result), r')) hcanon ?_
      exact ⟨hhas, htree, hm'.insert (C.mono hle ht) hhas htree, hr'⟩

/-- Below a free depth there is room for one more binder. -/
theorem inner_yields {depth : Index} {deep : Index} (h : store.Canonical)
    (hd : depth.val < deep.val) :
    building.Yields (inner depth) store (fun next store' => next.val = depth.val + 1 ∧ store' = store)
      fun fault _ => C.fails fault := by
  have hlt : depth.val + 1 < 4294967296 := by
    have := deep.isLt
    omega
  have hnext : Index.next? depth = some ⟨depth.val + 1, hlt⟩ := Index.next?_eq_some_iff.mpr rfl
  have he : inner depth store = (.ok ⟨depth.val + 1, hlt⟩, store) := by
    rw [inner, hnext]
    rfl
  exact .of_eq_ok he h (le_refl _) ⟨rfl, rfl⟩

/-- A node rebuilt from what its children became. -/
theorem rebuild_walked {t : Term} {children : List Term} {depth : Index} (h : store.Canonical)
    (ht : C.has store t) (hc : ∀ c ∈ children, C.has store c)
    (hlen : children.length = t.children.length)
    (htree : Tree.ofShape ((t.shape.withChildren children).map Term.tree) =
      t.tree.mapBound f depth.val)
    (hm : Recorded C f store memo) (hj : ∀ {store'}, store ≤ store' → J store' r) :
    building.Yields ((liftM (rebuild t children) : Walking ρ Term) memo r) store
      (Walked C f J t.tree depth) fun fault _ => C.fails fault := by
  refine (Discipline.Yields.liftState₂ (rebuild_yields C h (fun _ => ht) hc)).mono ?_ ?_
  · rintro ⟨⟨u, m⟩, r'⟩ store' hcanon hle ⟨⟨hu, hshape⟩, rfl, rfl⟩
    refine ⟨C.of_owns hu, ?_, hm.mono hle, hj hle⟩
    rw [Term.tree_eq_ofShape u, hshape hlen]
    exact htree
  · rintro fault store' - - (hf | hne)
    · exact hf
    · exact absurd hlen hne

mutual

theorem walkAt_yields (hp : place.Meets C f start J) : ∀ (t : Term) (depth : Index) {store : Store}
    {memo : SightMap Term} {r : ρ}, start ≤ depth.val → store.Canonical → C.has store t → Recorded C f store memo →
    J store r →
    building.Yields (walkAt place depth t memo r) store (Walked C f J t.tree depth)
      fun fault _ => C.fails fault
  | t@(.var _ _), depth, store, memo, r, hst, h, ht, hm, hr
  | t@(.const _ _), depth, store, memo, r, hst, h, ht, hm, hr => by
    rw [walkAt]
    refine remembered_yields hp.bound h ht hm hr fun _ => ?_
    exact rebuild_walked h ht (by simp) rfl rfl hm fun hle => hp.mono hle hr
  | t@(.bound _ index owner), depth, store, memo, r, hst, h, ht, hm, hr => by
    rw [walkAt]
    refine remembered_yields hp.bound h ht hm hr fun hd => ?_
    cases hplace : place depth index owner with
    | none =>
      exact rebuild_walked h ht (by simp) rfl (hp.stays hplace).symm hm fun hle => hp.mono hle hr
    | some make =>
      rw [C.depth h ht] at hd
      refine (hp.takes hplace hst hd h hr).bind ?_
      rintro ⟨u, r'⟩ store' hcanon hle ⟨hhas, htree, hr'⟩
      exact .pure (a := ((u, memo), r')) hcanon ⟨hhas, htree, hm.mono hle, hr'⟩
  | t@(.fn _ symbol args), depth, store, memo, r, hst, h, ht, hm, hr => by
    rw [walkAt]
    refine remembered_yields hp.bound h ht hm hr fun _ => ?_
    refine .bindState₂ (walkAllAt_yields hp args depth hst h (fun c hc => C.child h ht hc) hm hr) ?_
    rintro args' memo' r' store' hcanon hle ⟨hhas, htrees, hm', hr'⟩
    refine rebuild_walked hcanon (C.mono hle ht) hhas ?_ ?_ hm' fun hle' => hp.mono hle' hr'
    · have hlen : args'.length = args.length := by
        simpa only [List.length_map] using congrArg List.length htrees
      exact hlen
    · rw [Term.tree, Tree.mapBound, Tree.mapBoundAll_eq_map, Term.trees_eq_map, List.map_map]
      exact congrArg (Tree.fn symbol) htrees
  | t@(.app _ function argument), depth, store, memo, r, hst, h, ht, hm, hr => by
    rw [walkAt]
    refine remembered_yields hp.bound h ht hm hr fun _ => ?_
    have hfun : C.has store function := C.child h ht List.mem_cons_self
    have harg : C.has store argument := C.child h ht (List.mem_cons_of_mem _ List.mem_cons_self)
    refine .bindState₂ (walkAt_yields hp function depth hst h hfun hm hr) ?_
    rintro function' memo' r' store' hcanon hle ⟨hhas, htree, hm', hr'⟩
    refine .bindState₂ (walkAt_yields hp argument depth hst hcanon (C.mono hle harg) hm' hr') ?_
    rintro argument' memo'' r'' store'' hcanon' hle' ⟨hhas', htree', hm'', hr''⟩
    refine rebuild_walked hcanon' (C.mono hle' (C.mono hle ht)) ?_ rfl ?_ hm''
      fun hle'' => hp.mono hle'' hr''
    · intro c hc
      simp only [List.mem_cons, List.not_mem_nil, or_false] at hc
      rcases hc with rfl | rfl
      · exact C.mono hle' hhas
      · exact hhas'
    · rw [Term.tree, Tree.mapBound, ← htree, ← htree']
      rfl
  | t@(.lambda _ body), depth, store, memo, r, hst, h, ht, hm, hr => by
    rw [walkAt]
    refine remembered_yields hp.bound h ht hm hr fun hd => ?_
    have hbody : C.has store body := C.child h ht List.mem_cons_self
    refine .bindState₂ (Discipline.Yields.liftState₂ (inner_yields (C := C) h hd)) ?_
    rintro next memo' r' store' - - ⟨⟨hnext, rfl⟩, rfl, rfl⟩
    have hst' : start ≤ next.val := Nat.le_trans hst (by rw [hnext]; exact Nat.le_succ _)
    refine .bindState₂ (walkAt_yields hp body next hst' h hbody hm hr) ?_
    rintro body' memo' r' store' hcanon hle ⟨hhas, htree, hm', hr'⟩
    refine (Discipline.Yields.liftState₂ (intern_yields C hcanon (.lambda body') ?_)).mono
      ?_ fun _ _ _ _ hf => hf
    · intro c hc
      rw [List.mem_singleton.mp hc]
      exact hhas
    · rintro ⟨⟨u, m⟩, r''⟩ store'' - hle' ⟨⟨hu, hshape⟩, rfl, rfl⟩
      refine ⟨C.of_owns hu, ?_, hm'.mono hle', hp.mono hle' hr'⟩
      rw [Term.tree_eq_ofShape u, hshape, Term.tree, Tree.mapBound, ← hnext, ← htree]
      rfl

theorem walkAllAt_yields (hp : place.Meets C f start J) : ∀ (ts : List Term) (depth : Index)
    {store : Store} {memo : SightMap Term} {r : ρ}, start ≤ depth.val → store.Canonical → (∀ t ∈ ts, C.has store t) →
    Recorded C f store memo → J store r →
    building.Yields (walkAllAt place depth ts memo r) store
      (fun p store' => (∀ u ∈ p.1.1, C.has store' u) ∧
        p.1.1.map Term.tree = ts.map (fun t => t.tree.mapBound f depth.val) ∧
        Recorded C f store' p.1.2 ∧ J store' p.2)
      fun fault _ => C.fails fault
  | [], depth, store, memo, r, hst, h, ht, hm, hr => by
    rw [walkAllAt]
    exact .pure (a := (([], memo), r)) h ⟨by simp, rfl, hm, hr⟩
  | t :: ts, depth, store, memo, r, hst, h, ht, hm, hr => by
    rw [walkAllAt]
    refine .bindState₂ (walkAt_yields hp t depth hst h (ht t List.mem_cons_self) hm hr) ?_
    rintro u memo' r' store' hcanon hle ⟨hhas, htree, hm', hr'⟩
    refine .bindState₂ (walkAllAt_yields hp ts depth hst hcanon
      (fun c hc => C.mono hle (ht c (List.mem_cons_of_mem _ hc))) hm' hr') ?_
    rintro us memo'' r'' store'' hcanon' hle' ⟨hhas', htrees, hm'', hr''⟩
    refine .pure (a := ((u :: us, memo''), r'')) hcanon' ⟨?_, ?_, hm'', hr''⟩
    · intro c hc
      rcases List.mem_cons.mp hc with rfl | hc
      · exact C.mono hle' hhas
      · exact hhas' c hc
    · rw [List.map_cons, List.map_cons, htree, htrees]

end

/-- **The walk of a term unfolds to its tree with the bound variables replaced.** -/
theorem walk_yields {t : Term} {depth : Index} (hp : place.Meets C f depth.val J)
    (h : store.Canonical) (ht : C.has store t) (hr : J store r) :
    building.Yields (walk place depth r t) store
      (fun u store' => C.has store' u ∧ u.tree = t.tree.mapBound f depth.val)
      fun fault _ => C.fails fault := by
  refine .dropState₂ ((walkAt_yields hp t depth (Nat.le_refl _) h ht Recorded.empty hr).mono ?_
    fun _ _ _ _ hf => hf)
  rintro ⟨⟨u, memo⟩, r⟩ store' - - ⟨hhas, htree, -, -⟩
  exact ⟨hhas, htree⟩

end Build

end TermGraph
