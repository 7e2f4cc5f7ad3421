import TermGraph.Proofs.Normalizer.Disagreement
import TermGraph.Proofs.Normalizer.Enclosing
import TermGraph.Proofs.Normalizer.Lockstep
import TermGraph.Proofs.Normalizer.Soundness

/-!
# Results do not depend on the store

A term without free indices may be normalized in its own store or in another. With nothing known beforehand, the two
calls go in lockstep: both return or none does, both run into a cycle or none does, and a result of the one call is the
copy of that of the other. What else the stores hold makes no difference.

For that, the rules must not insert variables that count binders of one of the stores: in the one store they are
captured and in the other they are not. And the last index must not occur in the term, since it does not tell which
binder it counts. Whether it occurs elsewhere in the stores does not matter, as long as it does not come into the
result.

## Main statements

* `Store.Mirror.insert_iff` — when a node is inserted as its mirror image
* `World.normalizes_alike` — **results do not depend on the store**
* `World.not_normalizes_alike` — where they do
-/

namespace TermGraph

variable {here there : Nat}

/-! ## Rules -/

/-- A tree that avoids two scopes is left alone when these change places. -/
theorem Term.Avoids.spared {q : Term} (h : q.Avoids here) (h' : q.Avoids there) :
    q.tree.Spared (Equiv.swap here there) :=
  Tree.Every.mono (fun _ _ hs => Equiv.swap_apply_of_ne_of_ne hs.1 hs.2) (Tree.Every.and h h')

/-- A rule that avoids both stores is apart from them. -/
theorem Rule.Avoids.apart : ∀ {rule : Rule}, rule.Avoids here → rule.Avoids there →
    rule.Apart (Equiv.swap here there) here := by
  have hsides : ∀ {sides : PatternRule}, some sides.store.scope ≠ some here → some sides.store.scope ≠ some there →
      sides.template.Avoids here → sides.template.Avoids there → sides.Apart (Equiv.swap here there) here :=
    fun hhere hthere h h' => ⟨fun he => hhere (congrArg some he),
      Equiv.swap_apply_of_ne_of_ne (fun he => hhere (congrArg some he)) fun he => hthere (congrArg some he),
      h.spared h'⟩
  intro rule h h'
  cases rule with
  | pattern sides => exact hsides h.1 h'.1 (h.2 _ List.mem_cons_self) (h'.2 _ List.mem_cons_self)
  | conditional sides conditions howned =>
    refine ⟨hsides h.1 h'.1 (h.2 _ List.mem_cons_self) (h'.2 _ List.mem_cons_self), fun c hc => ?_⟩
    have hmem : c.lhs ∈ Rule.inserted (.conditional sides conditions howned) :=
      List.mem_cons_of_mem _ (List.mem_map_of_mem hc)
    exact (h.2 _ hmem).spared (h'.2 _ hmem)
  | contraction => trivial

/-! ## Calls -/

namespace Reduction

variable {D : Discipline (Session × Session)} {rewriter : Rewriter} {s s' t t' : Session} {x y : Term}
  {P : Term → Term → Session → Session → Prop} {result result' : Except Cycle Term}

/-- **Calls that are coupled whatever the number of steps both return or none does**, with results that are related. -/
theorem returns_couples (h : ∀ n, D.Couples (normalize rewriter n x) (normalize rewriter n y) s t P) :
    (∀ result s', Returns rewriter x s result s' →
      ∃ result' t', Returns rewriter y t result' t' ∧ Raised P s' t' result result') ∧
    ∀ result' t', Returns rewriter y t result' t' →
      ∃ result s', Returns rewriter x s result s' ∧ Raised P s' t' result result' := by
  have hboth : ∀ n, (∃ result s' result' t', normalize rewriter n x s = (result.mapError Fault.cycle, s') ∧
      normalize rewriter n y t = (result'.mapError Fault.cycle, t') ∧ Raised P s' t' result result') ∨
      ∃ s' t', normalize rewriter n x s = (.error .outOfSteps, s') ∧
        normalize rewriter n y t = (.error .outOfSteps, t') := by
    intro n
    rcases (h n).ends with ⟨u, s', v, t', hx, hy, -, -, hP⟩ | ⟨fault, s', fault', t', hx, hy, -, -, halike⟩
    · exact Or.inl ⟨.ok u, s', .ok v, t', hx, hy, .ok hP⟩
    · cases halike with
      | cycle cycle cycle' => exact Or.inl ⟨.error cycle, s', .error cycle', t', hx, hy, .error cycle cycle'⟩
      | outOfSteps => exact Or.inr ⟨s', t', hx, hy⟩
  have hnot : ∀ {result : Except Cycle Term} {s' s'' : Session},
      ((result.mapError Fault.cycle, s') : Except Fault Term × Session) ≠ (.error .outOfSteps, s'') := by
    intro result s' s'' he
    cases result <;> cases he
  constructor
  · rintro result s' ⟨n, hn⟩
    rcases hboth n with ⟨result₁, s₁, result', t', hx, hy, hraised⟩ | ⟨s₁, t', hx, -⟩
    · obtain ⟨rfl, rfl⟩ := Returns.unique ⟨n, hn⟩ ⟨n, hx⟩
      exact ⟨result', t', ⟨n, hy⟩, hraised⟩
    · exact absurd (hn.symm.trans hx) hnot
  · rintro result' t' ⟨n, hn⟩
    rcases hboth n with ⟨result, s', result₁, t₁, hx, hy, hraised⟩ | ⟨s', t₁, -, hy⟩
    · obtain ⟨rfl, rfl⟩ := Returns.unique ⟨n, hn⟩ ⟨n, hy⟩
      exact ⟨result, s', ⟨n, hx⟩, hraised⟩
    · exact absurd (hn.symm.trans hy) hnot

/-- Of such calls, both return or none does, both fail or none does, and what they return is related. -/
theorem returns_alike (h : ∀ n, D.Couples (normalize rewriter n x) (normalize rewriter n y) s t P) :
    ((∃ result s', Returns rewriter x s result s') ↔ ∃ result t', Returns rewriter y t result t') ∧
    ((∃ cycle s', Returns rewriter x s (.error cycle) s') ↔ ∃ cycle t', Returns rewriter y t (.error cycle) t') ∧
    ∀ u s' v t', Returns rewriter x s (.ok u) s' → Returns rewriter y t (.ok v) t' → P u v s' t' := by
  obtain ⟨hright, hleft⟩ := returns_couples h
  refine ⟨⟨?_, ?_⟩, ⟨?_, ?_⟩, ?_⟩
  · rintro ⟨result, s', hrun⟩
    obtain ⟨result', t', hrun', -⟩ := hright result s' hrun
    exact ⟨result', t', hrun'⟩
  · rintro ⟨result', t', hrun'⟩
    obtain ⟨result, s', hrun, -⟩ := hleft result' t' hrun'
    exact ⟨result, s', hrun⟩
  · rintro ⟨cycle, s', hrun⟩
    obtain ⟨_, t', hrun', ⟨⟩⟩ := hright _ s' hrun
    exact ⟨_, t', hrun'⟩
  · rintro ⟨cycle, t', hrun'⟩
    obtain ⟨_, s', hrun, ⟨⟩⟩ := hleft _ t' hrun'
    exact ⟨_, s', hrun⟩
  · intro u s' v t' hrun hrun'
    obtain ⟨result, t₁, hreturns, hraised⟩ := hright _ s' hrun
    obtain ⟨rfl, rfl⟩ := hreturns.unique hrun'
    cases hraised with
    | ok hP => exact hP

end Reduction

/-- A node is inserted as its mirror image exactly if its tree has no free indices and the last does not occur. -/
theorem Store.Mirror.insert_iff {source : Store} {bench : Bench} {r r' : Term} (hsource : source.Canonical)
    (h : bench.store.Canonical) (hne : source.scope ≠ bench.store.scope)
    (hmirror : Store.Mirror (Equiv.swap source.scope bench.store.scope) source bench.store r r') :
    (∃ bench', Work.insert .none r bench = (.ok r', bench')) ↔
      r.tree.Enclosed source.scope bench.store.scope 0 ∧ r.tree.Unsaturated source.scope := by
  obtain ⟨u, bench', hrun, hcanonical, hle, hu, htree⟩ := (Work.insert_foreign hsource h hmirror.owns hne).succeeds
  rw [← Tree.fill_var_eq_rename_iff hne, ← htree, ← hmirror.tree]
  constructor
  · rintro ⟨bench'', hrun'⟩
    rw [hrun] at hrun'
    cases hrun'
    rfl
  · intro heq
    obtain rfl := hcanonical.eq_of_tree_eq hu (hmirror.image.mono hle.1) heq
    exact ⟨bench', hrun⟩

namespace World

variable {world : World} {rewriter : Rewriter} {t : Term}

/-- **Results do not depend on the store.** In every reachable world, let a term without free indices be normalized in
its own store and in another, by any rules that belong to neither store and insert no variables of theirs, with nothing
known beforehand. Then both calls return or none does, and both end with a cycle or none does. Results are the same but
that their variables count binders of the one store or of the other. Inserting the first result into the second store
gives the second result exactly if the first result has no free indices and the last does not occur in it; and so it is
unless an index of the first store has reached the last. -/
theorem normalizes_alike (h : world.Reachable) (hne : here ≠ there) (journal journal' : Journal)
    (hrules : ∀ rule ∈ rewriter.rules, world.HasRule rule ∧ rule.Avoids here ∧ rule.Avoids there)
    (ht : (world.stores here).Owns t) (hclosed : t.tree.Closed here) (hlast : t.tree.Unsaturated here) :
    let s : Session := ⟨⟨world.stores here, journal⟩, .empty⟩
    let s' : Session := ⟨⟨world.stores there, journal'⟩, .empty⟩
    ((∃ result left, Reduction.Returns rewriter t s result left) ↔
      ∃ result right, Reduction.Returns rewriter t s' result right) ∧
    ((∃ cycle left, Reduction.Returns rewriter t s (.error cycle) left) ↔
      ∃ cycle right, Reduction.Returns rewriter t s' (.error cycle) right) ∧
    ∀ r left r' right, Reduction.Returns rewriter t s (.ok r) left →
      Reduction.Returns rewriter t s' (.ok r') right → r'.tree = r.tree.rename (Equiv.swap here there) ∧
        ((∃ bench, Work.insert .none r right.bench = (.ok r', bench)) ↔
          r.tree.Enclosed here there 0 ∧ r.tree.Unsaturated here) ∧
        (left.bench.store.Unsaturated → r.tree.Enclosed here there 0 ∧ r.tree.Unsaturated here) := by
  intro s s'
  obtain ⟨hcanon, hscope⟩ := h.sound.stores here
  obtain ⟨hcanon', hscope'⟩ := h.sound.stores there
  have hswap : Equiv.swap here there here = there := Equiv.swap_apply_left here there
  have hwithin := fun scope rule hr => h.sound.rule_within scope (hrules rule hr).1
  have hcoupled : Coupled h.sound.custody (Equiv.swap here there) here rewriter.rules s s' :=
    ⟨hcanon, hcanon', hscope, hscope'.trans hswap.symm, fun rule hr => ⟨hwithin here rule hr, hwithin there rule hr⟩,
      .empty⟩
  have henclosing : Enclosing h.sound.custody here there rewriter.rules s :=
    ⟨hcanon, hscope, hwithin here, fun u next hl => by simp [s, Cache.empty, Cache.link?] at hl⟩
  have henclosed : t.tree.Enclosed here there 0 :=
    Tree.Every.mono (fun depth slot hslot => ⟨hslot.1 ▸ hne, fun _ => hslot.2⟩) hclosed
  have hcouples : ∀ n, beside.Couples (Reduction.normalize rewriter n t)
      (Reduction.normalize rewriter n t) s s' fun u v left right => left.Mirror (Equiv.swap here there) right u v ∧
        beside.sound (left, right) ∧ beside.grows (s, s') (left, right) := fun n =>
    (Reduction.normalize_couples (List.Subset.refl _) (fun rule hr => (hrules rule hr).2.1.apart (hrules rule hr).2.2) n
      hcoupled ht (hswap.trans_ne hne.symm)
      (by rw [hswap]; exact (Tree.fill_var_eq_rename_iff hne).mpr ⟨henclosed, hlast⟩)).mono
        fun _ _ _ _ hs hg hM => ⟨hM, hs, hg⟩
  obtain ⟨hreturns, hfails, hrelated⟩ := Reduction.returns_alike hcouples
  refine ⟨hreturns, hfails, fun r left r' right hrun hrun' => ?_⟩
  obtain ⟨hmirror, ⟨hstore, hstore'⟩, hgrows, hgrows'⟩ := hrelated r left r' right hrun hrun'
  have hs : left.bench.store.scope = here := (Store.scope_eq_of_le hgrows.1).trans hscope
  have hs' : right.bench.store.scope = there := (Store.scope_eq_of_le hgrows'.1).trans hscope'
  refine ⟨hmirror.tree, ?_, fun hsat => ⟨?_, hs ▸ hsat.tree hstore r hmirror.owns⟩⟩
  · subst hs hs'
    exact hmirror.insert_iff hstore hstore' hne
  · -- the result is closed as the term is
    obtain ⟨n, hn⟩ := hrun
    exact ((Reduction.normalize_encloses hne (List.Subset.refl _) (fun rule hr => (hrules rule hr).2) n
      henclosing ht).ok hn).2.2.kept hsat 0 henclosed

/-- By the rules for `apply` and `double`, `λ.apply(λ.h(double(%0)), %0)` becomes
`λ.pair(plus(%0, %0), λ.g(plus(%1, %1), %0))` in store 0, and the copy of that in store 7, which has a part of it
before. That store 0 has the last index, which does not occur in the result, makes no difference. -/
theorem alike_by_applying :
    let rules := .contraction :: furniture applying
    let tree : Tree Index := .lambda (.fn "apply" [.lambda (.fn "h" [.fn "double" [.bound (.clamp 0)]]),
      .bound (.clamp 0)])
    let world := (((furnished applying).step 0 0 (.plant tree)).step 0 0 (.plant (.bound Index.last))).step 7 0
      (.plant (.lambda (.fn "plus" [.bound (.clamp 0), .bound (.clamp 0)])))
    ∃ t r r' left right bench, world.Reachable ∧ (world.stores 0).Owns t ∧ t.tree = tree.planted 0 ∧
      Reduction.Returns (.system rules) t (.fresh (world.stores 0)) (.ok r) left ∧
      Reduction.Returns (.system rules) t (.fresh (world.stores 7)) (.ok r') right ∧
      r.tree = .lambda (.fn "pair" [.fn "plus" [.bound ⟨.clamp 0, 0⟩, .bound ⟨.clamp 0, 0⟩],
        .lambda (.fn "g" [.fn "plus" [.bound ⟨.clamp 1, 0⟩, .bound ⟨.clamp 1, 0⟩], .bound ⟨.clamp 0, 0⟩])]) ∧
      ¬ left.bench.store.Unsaturated ∧ r'.tree = r.tree.rename (Equiv.swap 0 7) ∧
      Work.insert .none r right.bench = (.ok r', bench) := by
  intro rules tree world
  have hrun : passes (Work.plant tree { store := .empty 0 }) fun t bench =>
      passes (Work.plant (.bound Index.last) { store := bench.store }) fun _ bench =>
        passes (Reduction.normalize (.system rules) 12 t (.fresh bench.store)) fun r left =>
          decide (t.tree = tree.planted 0 ∧
            r.tree = .lambda (.fn "pair" [.fn "plus" [.bound ⟨.clamp 0, 0⟩, .bound ⟨.clamp 0, 0⟩],
              .lambda (.fn "g" [.fn "plus" [.bound ⟨.clamp 1, 0⟩, .bound ⟨.clamp 1, 0⟩], .bound ⟨.clamp 0, 0⟩])]) ∧
            ¬ left.bench.store.Unsaturated) := by
    decide +kernel
  obtain ⟨t, bench, hplant, hrun⟩ := exists_of_passes hrun
  obtain ⟨last, bench', hplant', hrun⟩ := exists_of_passes hrun
  obtain ⟨r, left, hreturns, hrun⟩ := exists_of_passes hrun
  obtain ⟨htree, hrtree, hsat⟩ := of_decide_eq_true hrun
  have hfirst := furnished_plant_reachable applying tree
  have hsecond := Reachable.step 0 0 hfirst (admits_plant _ (.bound Index.last))
  have hreach : world.Reachable := .step 7 0 hsecond (admits_plant _ _)
  have hgrows := fun k => le_trans (hfirst.sound.le_step 0 0 (admits_plant _ (.bound Index.last)) k)
    (hsecond.sound.le_step 7 0 (admits_plant _ (.lambda (.fn "plus" [.bound (.clamp 0), .bound (.clamp 0)]))) k)
  have hbefore := furnished_plant applying hplant
  have hstore : world.stores 0 = bench'.store := by
    rw [← hbefore] at hplant'
    exact (put_stores_of_ne _ 0 _ (show (0 : Nat) ≠ 7 by decide)).trans (step_store_of_work rfl hplant' 0)
  have ht : (world.stores 0).Owns t :=
    Store.Owns.mono (hbefore ▸ ((Work.plant_empty 0 tree).ok hplant).2.2.1) (hgrows 0)
  have havoids : ∀ rule ∈ rules, rule.Avoids 0 ∧ rule.Avoids 7 := by decide +kernel
  have hrules : ∀ rule ∈ (Rewriter.system rules).rules, world.HasRule rule ∧ rule.Avoids 0 ∧ rule.Avoids 7 := by
    refine fun rule hr => ⟨?_, havoids rule hr⟩
    rcases List.mem_cons.mp hr with rfl | hr
    · trivial
    · exact (furnished_plant_hasRule tree hr).mono hgrows
  have hleft : Reduction.Returns (.system rules) t (.fresh (world.stores 0)) (.ok r) left :=
    ⟨12, by rw [hstore]; exact hreturns⟩
  obtain ⟨hreturn, hcycle, hsame⟩ := normalizes_alike hreach (show (0 : Nat) ≠ 7 by decide) #[] #[] hrules ht
    (by rw [htree]; decide) (by rw [htree]; decide)
  obtain ⟨result', right, hright⟩ := hreturn.mp ⟨_, left, hleft⟩
  cases result' with
  | error cycle =>
    obtain ⟨cycle', left', hleft'⟩ := hcycle.mpr ⟨cycle, right, hright⟩
    cases (hleft.unique hleft').1
  | ok r' =>
    obtain ⟨hr', hinsert, -⟩ := hsame r left r' right hleft hright
    obtain ⟨bench', hinsert⟩ := hinsert.mpr (by rw [hrtree]; decide)
    exact ⟨t, r, r', left, right, bench', hreach, ht, htree, hleft, hright, hrtree, hsat, hr', hinsert⟩

/-- **Results may depend on the store.** Let one rule replace `c` by the variable `%0` that counts binders of store 5,
and another by `y` if `%0` comes to `y`. In store 5 the lambda of `λ.c` captures the variable, in store 0 it does not,
and then `λ.%0` is inserted into store 5 as `λ.%1`. The same happens if the term is one of store 5. And without any rule
but contraction, two stores disagree about a closed term in which the last index occurs. -/
theorem not_normalizes_alike :
    (∃ (world : World) (sides sides' : PatternRule) (conditions : List Condition) (howned : _) (t u : Term),
      world.Reachable ∧ (world.stores 0).Owns t ∧ t.tree.Closed 0 ∧ (world.stores 5).Owns u ∧ u.tree.Closed 5 ∧
      sides'.template.tree = .var "y" ∧ ∀ rule ∈ [.pattern sides, .conditional sides' conditions howned],
        world.HasRule rule ∧ rule.scope? = some 1 ∧
        Reduction.Disagree (.system [rule]) t (world.stores 0) (world.stores 5) ∧
        Reduction.Disagree (.system [rule]) u (world.stores 5) (world.stores 0)) ∧
    ∃ (world : World) (t : Term), world.Reachable ∧ (world.stores 0).Owns t ∧ t.tree.Closed 0 ∧
      Reduction.Disagree (.system [.contraction]) t (world.stores 0) (world.stores 1) := by
  refine ⟨disagree_of_captured, ?_⟩
  obtain ⟨n, hn⟩ : ∃ n, n + 1 = Index.last.val := ⟨4294967294, rfl⟩
  obtain ⟨world, t, hreach, ht, htree, hdisagree⟩ := disagree_of_saturated hn
  refine ⟨world, t, hreach, ht, ?_, hdisagree⟩
  rw [htree]
  exact closed_saturated hn

end World

end TermGraph
