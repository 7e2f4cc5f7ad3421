import TermGraph.Proofs.Normalizer.GenuineCycles
import TermGraph.Proofs.Normalizer.Idempotence

/-!
# Loops are detected

Rewriting may come back to a tree without end, though there are only finitely many trees to come to. Where no rule has
a condition, a normalizer notices that: it links each term that it rewrites, and does not rewrite a term that is linked.
So the nested steps of a call make a way on which no tree is rewritten twice, and such ways are bounded.

One kind of loop is passed over. A rule that replaces its pattern by the pattern runs into a cycle wherever it applies,
but where another rule does not apply, a system takes that for an answer, and the term for a normal form. What is
returned then need not be one, but no step changes it.

## Main statements

* `Term.Unchanging` — no step changes the term, and any that can be made is by a rule that may be passed over
* `World.Serves.returns_of_finite` — **a call returns if finitely many trees can be come to from its term**, with an
  unchanging term or over a cycle
* `World.not_normal_by_idling` — what is returned may be no normal form
-/

namespace TermGraph

open Relation

variable {rules : List Rule} {own : Nat}

/-! ## Rules that change nothing -/

/-- The rule replaces its pattern by the pattern. -/
def Rule.Idle : Rule → Prop
  | .pattern rule => rule.pattern.tree = rule.template.tree
  | _ => False

/-- What an idle rule makes of a tree is the tree. -/
theorem Rule.Idle.eq_of_reduct? {t u : Tree Slot} : ∀ {rule : Rule}, rule.Idle → rule.reduct? own t = some u → u = t
  | .pattern rule, hidle, hu => by
    obtain ⟨σ, hm, rfl⟩ := Option.map_eq_some_iff.mp hu
    rw [← show rule.pattern.tree = rule.template.tree from hidle]
    exact Tree.instantiate_of_instance? own _ (Tree.instance?_of_match? hm).2

/-- Where finitely many trees can be come to, a rule that was tried in vain and applies nevertheless is idle. -/
theorem Spares.idle {t u : Tree Slot} {rule : Rule} (h : Spares rules rules own t) (hr : rule ∈ rules)
    (hplain : rule.Plain) (hapart : rule.scope? ≠ some own)
    (hfinite : {u | ReflTransGen (Descends rules own) t u}.Finite) (hu : rule.reduct? own t = some u) :
    rule.Idle := by
  have hcalm : ¬ rule.Calm := fun hcalm => by
    rw [h.calm rule hr hcalm] at hu
    cases hu
  cases rule with
  | conditional _ _ _ => exact hplain.elim
  | contraction => exact absurd trivial hcalm
  | pattern sides =>
    obtain ⟨σ, hm, -⟩ := Option.map_eq_some_iff.mp hu
    exact PatternRule.eq_of_finite hr (fun heq => hapart (congrArg some heq)) (Bool.eq_true_of_not_eq_false hcalm)
      (by rw [hm, Option.isSome_some]) hfinite

/-! ## Terms that nothing changes -/

/-- A step is made at the root, or it is a step of a child. -/
theorem Tree.root_or_child_of_mem_reducts {root : Tree Slot → List (Tree Slot)} {t u : Tree Slot}
    (h : u ∈ t.reducts root) : u ∈ root t ∨ ∃ c ∈ t.children, ∃ d ∈ c.reducts root, d = c → u = t := by
  cases t with
  | fn f args =>
    rw [reducts, List.mem_append, List.mem_map] at h
    rcases h with h | ⟨us, hus, rfl⟩
    · exact Or.inl h
    · obtain ⟨before, c, after, d, rfl, hd, rfl⟩ := mem_reductsAll.mp hus
      exact Or.inr ⟨c, List.mem_append_right _ List.mem_cons_self, d, hd, fun hdc => by rw [hdc]⟩
  | app f a =>
    rw [reducts, List.mem_append, List.mem_append, List.mem_map, List.mem_map] at h
    rcases h with h | ⟨d, hd, rfl⟩ | ⟨d, hd, rfl⟩
    · exact Or.inl h
    · exact Or.inr ⟨f, List.mem_cons_self, d, hd, fun hdf => by rw [hdf]⟩
    · exact Or.inr ⟨a, List.mem_cons_of_mem _ List.mem_cons_self, d, hd, fun hda => by rw [hda]⟩
  | lambda body =>
    rw [reducts, List.mem_append, List.mem_map] at h
    rcases h with h | ⟨d, hd, rfl⟩
    · exact Or.inl h
    · exact Or.inr ⟨body, List.mem_cons_self, d, hd, fun hdb => by rw [hdb]⟩
  | _ => exact Or.inl h

/-- A step is made at the root of a subterm, and changes the term only if it changes the subterm. -/
theorem Term.exists_of_reduces {t : Term} {u : Tree Slot} (h : Reduces rules own t.tree u) :
    ∃ s ∈ t.postorder, ∃ rule ∈ rules, ∃ v, rule.reduct? own s.tree = some v ∧ (v = s.tree → u = t.tree) := by
  induction t using Term.children_induction generalizing u with
  | _ t ih =>
    rcases Tree.root_or_child_of_mem_reducts h with hroot | ⟨_, hmem, d, hd, hback⟩
    · obtain ⟨rule, hr, hreduct⟩ := List.mem_filterMap.mp hroot
      exact ⟨t, Term.mem_postorder.mpr (Or.inl rfl), rule, hr, u, hreduct, fun heq => heq⟩
    · rw [Term.children_tree] at hmem
      obtain ⟨c, hc, rfl⟩ := List.mem_map.mp hmem
      obtain ⟨s, hs, rule, hr, v, hv, hsame⟩ := ih c hc hd
      exact ⟨s, Term.mem_postorder.mpr (Or.inr ⟨c, hc, hs⟩), rule, hr, v, hv, fun hvs => hback (hsame hvs)⟩

/-- From a term there is a way down to each of its subterms. -/
theorem Term.descends_postorder {t s : Term} (h : s ∈ t.postorder) :
    ReflTransGen (Descends rules own) t.tree s.tree := by
  induction t using Term.children_induction with
  | _ t ih =>
    rcases Term.mem_postorder.mp h with rfl | ⟨c, hc, hs⟩
    · exact .refl
    · exact .head (.of_child hc) (ih c hc hs)

/-- No step changes the term. A rule that applies to one of its subterms is idle, and another rule does not apply. So
the term is a normal form if no rule is idle. -/
structure Term.Unchanging (rules : List Rule) (own : Nat) (t : Term) : Prop where
  same : ∀ u, Reduces rules own t.tree u → u = t.tree
  idle : ∀ s ∈ t.postorder, ∀ rule ∈ rules, rule.reduct? own s.tree ≠ none →
    rule.Idle ∧ ∃ other ∈ rules, other.reduct? own s.tree = none
  normal : (∀ rule ∈ rules, ¬ rule.Idle) → ∀ u, ¬ Reduces rules own t.tree u

/-- A normal form of the store is unchanging if finitely many trees can be come to from it. -/
theorem Tidy.unchanging {C : Custody} {terms : List Term} {session : Session} {r : Term}
    (h : Tidy C rules own terms session) (hs : Standing C rules [] session) (hplain : ∀ rule ∈ rules, rule.Plain)
    (hr : session.bench.store.Owns r) (hn : session.cache.isNormal r = true)
    (hfinite : {u | ReflTransGen (Descends rules own) r.tree u}.Finite) : r.Unchanging rules own := by
  have hspares : ∀ s ∈ r.postorder, Spares rules rules own s.tree := fun s hsub => by
    obtain ⟨howns, hnormal⟩ := hs.orderly.postorder hs.canonical hr hn s hsub
    obtain ⟨v, hv, hid, hspares⟩ := h.faithful.marks s hnormal
    obtain rfl : v = s := C.unique hs.canonical hv (C.of_owns howns) hid
    exact ((hs.canonical.scope_eq howns).trans h.scope) ▸ hspares
  have hidle : ∀ s ∈ r.postorder, ∀ rule ∈ rules, ∀ v, rule.reduct? own s.tree = some v → rule.Idle :=
    fun s hsub rule hrule v hv => (hspares s hsub).idle hrule (hplain rule hrule)
      (h.scope ▸ hs.apart rule hrule) (hfinite.subset fun u hu => (Term.descends_postorder hsub).trans hu) hv
  refine ⟨fun u hu => ?_, fun s hsub rule hrule happlies => ?_, fun hnone u hu => ?_⟩
  · obtain ⟨s, hsub, rule, hrule, v, hv, hsame⟩ := Term.exists_of_reduces hu
    exact hsame ((hidle s hsub rule hrule v hv).eq_of_reduct? hv)
  · obtain ⟨v, hv⟩ := Option.ne_none_iff_exists'.mp happlies
    exact ⟨hidle s hsub rule hrule v hv, (hspares s hsub).other (List.ne_nil_of_mem hrule)⟩
  · obtain ⟨s, hsub, rule, hrule, v, hv, -⟩ := Term.exists_of_reduces hu
    exact hnone rule hrule (hidle s hsub rule hrule v hv)

/-! ## Calls -/

namespace World

variable {rewriter : Rewriter} {normalizer scope : Nat} {world : World} {journal : Journal} {t : Term}
  {tree : Tree Slot}

/-- **A call returns if finitely many trees can be come to from its term**, by steps at any position and down to
children, whatever the normalizer has been through before, if no rule has a condition. It returns an unchanging term,
which is a normal form unless a rule is idle, or it fails over a cycle. The term of the call may belong to any store;
`tree` is that of its copy, which is the term itself if it belongs to the store of the call. -/
theorem Serves.returns_of_finite (h : Serves rewriter normalizer world journal)
    (hplain : ∀ rule ∈ rewriter.rules, rule.Plain) (hapart : ∀ rule ∈ rewriter.rules, rule.scope? ≠ some scope)
    (ht : world.Has t) (hcopied : Links.none.Copied scope t tree)
    (hfinite : {u | ReflTransGen (Descends rewriter.rules scope) tree u}.Finite) :
    ∃ result session, Call rewriter normalizer world journal scope t result session ∧
      ∀ r, result = .ok r → session.bench.store.Owns r ∧ session.cache.isNormal r = true ∧
        r.Unchanging rewriter.rules scope := by
  have htidy := h.tidy hplain scope
  obtain ⟨n, hn⟩ := exists_forall_not_explores hfinite
  have hyields := Reduction.normalize_loops hplain n (h.serving.standing hapart) htidy
    ((h.serving.sound.holds_iff scope).mpr ht)
  -- so many steps are not used up
  obtain ⟨result, session, hcall⟩ : ∃ result session, Call rewriter normalizer world journal scope t result session := by
    rcases hrun : Reduction.normalize rewriter n t (world.session scope normalizer journal)
      with ⟨fault | r, session⟩
    · obtain ⟨-, -, -, u, start, hu, hfails⟩ := hyields.error hrun
      cases hfails with
      | spent way => exact absurd (hu.unique hcopied ▸ way) (hn _)
      | raised cycle _ => exact ⟨.error cycle, session, ht, hapart, n, hrun⟩
    · exact ⟨.ok r, session, ht, hapart, n, hrun⟩
  refine ⟨result, session, hcall, ?_⟩
  rintro r rfl
  obtain ⟨hs, -, _, hsettled, -⟩ := h.serving.answer hcall
  obtain ⟨hleft, hreaches, -⟩ := h.serving.call_tidy hplain htidy hcall
  obtain ⟨u, hu, hsteps⟩ := hreaches r rfl
  -- what can be come to from the result can be come to from the copy
  have hway := hu.unique hcopied ▸ hsteps.descends
  exact ⟨hsettled.owns, hsettled.normal, hleft.unchanging hs hplain hsettled.owns hsettled.normal
    (hfinite.subset fun v hv => hway.trans hv)⟩

/-- Only the trees of a list can be come to that each step and each descent from one of them leads back to. -/
theorem finite_of_closed (trees : List (Tree Slot)) (htree : tree ∈ trees)
    (hclosed : ∀ s ∈ trees, (∀ u ∈ s.reducts fun s => rules.filterMap fun rule => rule.reduct? own s, u ∈ trees) ∧
      ∀ c ∈ s.children, c ∈ trees) : {u | ReflTransGen (Descends rules own) tree u}.Finite := by
  refine (List.finite_toSet trees).subset fun u hu => ?_
  induction hu with
  | refl => exact htree
  | tail _ step ih => exact step.elim ((hclosed _ ih).1 _) ((hclosed _ ih).2 _)

/-- `a` becomes `a`, and `b` becomes `c`. -/
def idling : List Rule.Script := [⟨.fn "a" [], .fn "a" [], none⟩, ⟨.fn "b" [], .fn "c" [], none⟩]

/-- The first rule rewrites `a`. -/
theorem reduces_idling : Reduces (furniture idling) 0 (.fn "a" []) (.fn "a" []) := by decide +kernel

/-- Nothing can be come to from `a` but `a`. -/
theorem finite_idling : {u | ReflTransGen (Descends (furniture idling) 0) (.fn "a" []) u}.Finite :=
  finite_of_closed [.fn "a" []] List.mem_cons_self (by decide +kernel)

/-- The call for `a` returns `a`. -/
theorem call_idling : ∃ world t r session, Serves (.system (furniture idling)) 1 world #[] ∧
    (world.stores 0).Owns t ∧ t.tree = .fn "a" [] ∧ r.tree = .fn "a" [] ∧
    Call (.system (furniture idling)) 1 world #[] 0 t (.ok r) session := by
  have hrun : passes (Work.plant (.fn "a" []) { store := .empty 0 }) fun t bench =>
      passes (Reduction.normalize (.system (furniture idling)) 12 t (.fresh bench.store)) fun r _ =>
        decide (t.tree = .fn "a" [] ∧ r.tree = .fn "a" []) := by
    decide +kernel
  obtain ⟨t, bench, hplant, hrun⟩ := exists_of_passes hrun
  obtain ⟨r, session, hreturns, htrees⟩ := exists_of_passes hrun
  obtain ⟨htree, hrtree⟩ := of_decide_eq_true htrees
  have ht := ((Work.plant_empty 0 (.fn "a" [])).ok hplant).2.2.1
  exact ⟨_, t, r, session, (serves_furnished idling (.fn "a" []) one_ne_zero).1, furnished_plant idling hplant ▸ ht,
    htree, hrtree, furnished_call idling (.ok r) hplant ht hreturns⟩

/-- **What is returned may be no normal form**, though there is a cycle. Where `a` becomes `a` and `b` becomes `c`,
nothing can be come to from `a` but `a`. The first rule runs into a cycle and is passed over, since the second does not
apply. So the call for `a` returns `a`, though the first rule rewrites it. -/
theorem not_normal_by_idling :
    ∃ world t r session, Serves (.system (furniture idling)) 1 world #[] ∧
      (∀ rule ∈ furniture idling, rule.Plain) ∧ (∀ rule ∈ furniture idling, rule.scope? ≠ some 0) ∧
      (world.stores 0).Owns t ∧ t.tree = .fn "a" [] ∧ r.tree = .fn "a" [] ∧
      {u | ReflTransGen (Descends (furniture idling) 0) t.tree u}.Finite ∧
      Call (.system (furniture idling)) 1 world #[] 0 t (.ok r) session ∧
      (∀ cycle session', ¬ Call (.system (furniture idling)) 1 world #[] 0 t (.error cycle) session') ∧
      Reduces (furniture idling) 0 r.tree r.tree := by
  obtain ⟨world, t, r, session, hserves, ht, htree, hrtree, hcall⟩ := call_idling
  refine ⟨world, t, r, session, hserves, by decide +kernel, hcall.apart, ht, htree, hrtree, htree ▸ finite_idling,
    hcall, fun cycle session' hfails => ?_, hrtree ▸ reduces_idling⟩
  obtain ⟨hresult, -⟩ := hcall.returns.unique hfails.returns
  cases hresult

/-- Where `f` and `g` become each other, `f(z)` does not terminate, but `f(z)`, `g(z)` and `z` are all that can be come
to. So the call for `f(z)` returns. Where `a` becomes `a` and `b` becomes `c`, the call for `a` returns `a`, which is
rewritten, but does not change. -/
theorem returns_of_revolving :
    (∃ world t, Serves (.system (furniture revolving)) 1 world #[] ∧ world.Has t ∧
      Links.none.Copied 0 t (.fn "f" [.fn "z" []]) ∧
      ¬ Terminates (furniture revolving) 0 (.fn "f" [.fn "z" []]) ∧
      {u | ReflTransGen (Descends (furniture revolving) 0) (.fn "f" [.fn "z" []]) u}.Finite ∧
      ∃ result session, Call (.system (furniture revolving)) 1 world #[] 0 t result session) ∧
    ∃ world t r session, Serves (.system (furniture idling)) 1 world #[] ∧
      Call (.system (furniture idling)) 1 world #[] 0 t (.ok r) session ∧
      Reduces (furniture idling) 0 r.tree r.tree ∧ r.Unchanging (furniture idling) 0 := by
  constructor
  · obtain ⟨hserves, hapart, t, ht, htree⟩ := serves_furnished revolving (.fn "f" [.fn "z" []]) one_ne_zero
    have hplanted : t.tree = .fn "f" [.fn "z" []] := htree.trans (by decide +kernel)
    have hcopied := hplanted ▸ hserves.serving.sound.copied_of_owns ht
    have hhas : World.Has _ t := (hserves.serving.sound.holds_iff 0).mp (Or.inl ht)
    have hforth : Reduces (furniture revolving) 0 (.fn "f" [.fn "z" []]) (.fn "g" [.fn "z" []]) := by decide +kernel
    have hback : Reduces (furniture revolving) 0 (.fn "g" [.fn "z" []]) (.fn "f" [.fn "z" []]) := by decide +kernel
    have hfinite : {u | ReflTransGen (Descends (furniture revolving) 0) (.fn "f" [.fn "z" []]) u}.Finite :=
      finite_of_closed [.fn "f" [.fn "z" []], .fn "g" [.fn "z" []], .fn "z" []] List.mem_cons_self
        (by decide +kernel)
    obtain ⟨result, session, hcall, -⟩ := hserves.returns_of_finite (by decide +kernel) hapart hhas hcopied hfinite
    exact ⟨_, t, hserves, hhas, hcopied, not_terminates_of_loop (.tail (.single (Or.inl hforth)) (Or.inl hback)),
      hfinite, result, session, hcall⟩
  · obtain ⟨world, t, r, session, hserves, ht, htree, hrtree, hcall⟩ := call_idling
    have hcopied := htree ▸ hserves.serving.sound.copied_of_owns ht
    obtain ⟨result, session', hcall', hresult⟩ :=
      hserves.returns_of_finite (by decide +kernel) hcall.apart hcall.has hcopied finite_idling
    obtain ⟨rfl, rfl⟩ := hcall'.returns.unique hcall.returns
    exact ⟨world, t, r, session', hserves, hcall', hrtree ▸ reduces_idling, (hresult r rfl).2.2⟩

end World

end TermGraph
