import TermGraph.Proofs.Unification.Sequence
import TermGraph.Proofs.Unification.Solutions

/-!
# Most general unifiers

Two terms without binders have a unifier by finite trees exactly if unification succeeds and what it has bound can be
inserted. Then the solutions, applied until no bound variable is left, are a unifier from which every other one comes.

A unifier is an agreement: terms are in one group if it makes their trees equal. Below a group there are only groups of
smaller trees, so every group is grounded.

## Main statements

* `Agreement.of_unifier` — the terms that a substitution makes equal are an agreement
* `World.mostGeneral_of_reachable` — **unification finds a most general unifier if there is any**
-/

namespace TermGraph

open Filter

variable {P : Term → Prop} {R : Term → Term → Prop} {b : Bindings} {ν : Type} {τ : NodeId → Expression ν}
  {s t u v : Term}

/-! ## Unifiers as agreements -/

/-- Terms of the family whose trees the substitution makes equal. -/
def Equated (P : Term → Prop) (τ : NodeId → Expression ν) (s t : Term) : Prop := P s ∧ P t ∧ Unifies τ s t

/-- Roots that are no variables can be told from what a substitution makes of the terms. -/
theorem Equated.alike (hP : Term.Family P) (h : Equated P τ s t) (hfs : s.tree.binderFree = true)
    (hft : t.tree.binderFree = true) (hns : s.isVar = false) (hnt : t.isVar = false) :
    Term.Alike (Equated P τ) s t := by
  obtain ⟨hs, ht, heq⟩ := h
  have hchild : ∀ {c d : Term}, c ∈ s.children → d ∈ t.children →
      c.expression.subst τ = d.expression.subst τ → Equated P τ c d := fun hc hd he =>
    ⟨hP.child hs hc, hP.child ht hd, he⟩
  rw [Unifies] at heq
  cases s with
  | var => cases hns
  | lambda | bound => cases hfs
  | const _ a =>
    cases t with
    | var => cases hnt
    | lambda | bound => cases hft
    | const =>
      cases heq
      exact .const a
    | fn | app => cases heq
  | fn _ f ss =>
    cases t with
    | var => cases hnt
    | lambda | bound => cases hft
    | const | app => cases heq
    | fn _ g ts =>
      simp only [Term.expression, Term.expressions_eq_map, Expression.subst, Expression.substAll_eq_map, List.map_map,
        Expression.fn.injEq] at heq
      obtain ⟨rfl, hargs⟩ := heq
      exact .fn f (forall₂_of_map_eq hargs fun c hc d hd he => hchild hc hd he)
  | app _ f a =>
    cases t with
    | var => cases hnt
    | lambda | bound => cases hft
    | const | fn => cases heq
    | app _ g c =>
      simp only [Term.expression, Expression.subst, Expression.app.injEq] at heq
      have hsnd : ∀ {x y : Term}, y ∈ [x, y] := List.mem_cons_of_mem _ List.mem_cons_self
      exact .app (hchild List.mem_cons_self List.mem_cons_self heq.1) (hchild hsnd hsnd heq.2)

/-- The terms that a substitution makes equal are an agreement. -/
theorem Agreement.of_unifier (hP : Term.Family P) (hfree : ∀ {t : Term}, P t → t.tree.binderFree = true)
    (τ : NodeId → Expression ν) : Agreement P (Equated P τ) where
  refl ht := ⟨ht, ht, rfl⟩
  symm h := ⟨h.2.1, h.1, h.2.2.symm⟩
  trans h h' := ⟨h.1, h'.2.1, h.2.2.trans h'.2.2⟩
  inside h := h.1
  alike h hns hnt := h.alike hP (hfree h.1) (hfree h.2.1) hns hnt

/-- Below a term there are only terms that the substitution makes smaller, so every group is grounded. -/
theorem Equated.grounded (hfree : ∀ {t : Term}, P t → t.tree.binderFree = true) (τ : NodeId → Expression ν)
    (t : Term) : Grounded (Equated P τ) t := by
  refine Subrelation.accessible ?_ ((measure fun t : Term => (t.expression.subst τ).size).wf.apply t)
  rintro v u ⟨w, c, huw, hc, hcv⟩
  have hlt := Term.size_expression_lt τ (hfree huw.2.1) hc
  rwa [hcv.2.2, ← huw.2.2] at hlt

/-! ## The unifier that is found -/

namespace Bindings.Unites

variable (h : Unites P .empty (Alone P) [(s, t)] b R)

include h

theorem related : R s t := h.united (s, t) List.mem_cons_self

/-- Every unifier makes equal whatever has been united. -/
theorem le_equated (hP : Term.Family P) (hfree : ∀ {t : Term}, P t → t.tree.binderFree = true) (hτ : Unifies τ s t) :
    R ≤ Equated P τ := by
  have hst := h.related
  have hS := Agreement.of_unifier hP hfree τ
  exact h.finest _ hS hS.alone_le (forall_pair ⟨h.groups.agreement.inside hst, h.groups.agreement.inside_right hst, hτ⟩)

/-- If there is a unifier, the group of the two terms is grounded. -/
theorem grounded_of_unifies (hP : Term.Family P) (hfree : ∀ {t : Term}, P t → t.tree.binderFree = true)
    (hτ : Unifies τ s t) : Grounded R s :=
  Subrelation.accessible (fun hb => hb.mono (h.le_equated hP hfree hτ)) (Equated.grounded hfree τ s)

/-- **Every other unifier comes from the solutions**, however often they are applied. -/
theorem unifier_factors (hP : Term.Family P) (hfree : ∀ {t : Term}, P t → t.tree.binderFree = true)
    (hτ : Unifies τ s t) (n : Nat) (x : NodeId) : τ x = (b.solved n x).subst τ := by
  have hstep : ∀ x, (b.solution x).subst τ = τ x := by
    intro x
    rcases b.solution_cases x with hx | ⟨p, hp, rfl⟩
    · rw [solution_of_forall_ne hx, Expression.subst]
    · obtain ⟨htrail, hvar, hb⟩ := mem_solutions.mp hp
      have hR : R p.1 p.2 := h.groups.linked ⟨h.groups.trail _ htrail, hb⟩
      have heq := (h.le_equated hP hfree hτ _ _ hR).2.2
      rw [Unifies, Term.expression_of_isVar hvar] at heq
      rw [solution_of_mem hp, ← heq, Expression.subst]
  exact (Expression.subst_substN hstep n (.var x)).symm

/-- **The solutions applied often enough are a unifier**, if the group of the two terms is grounded. -/
theorem eventually_unifies (hP : Term.Family P) (hground : Grounded R s) :
    ∀ᶠ n in atTop, (∀ x, b.Settled (b.solved n x)) ∧ Unifies (b.solved n) s t := by
  have hgroups := h.groups
  have hst := h.related
  have hps := hgroups.agreement.inside hst
  have hpt := hgroups.agreement.inside_right hst
  obtain ⟨e, hs⟩ := hgroups.exists_reads hP hground s (hgroups.agreement.refl hps)
  obtain ⟨e', ht⟩ := hgroups.exists_reads hP hground t hst
  have hsolutions : ∀ p ∈ b.solutions, ∀ᶠ n in atTop, b.Settled (b.solved n p.1.id) := by
    intro p hp
    obtain ⟨htrail, hvar, hb⟩ := mem_solutions.mp hp
    have hpp := hgroups.trail _ htrail
    -- whatever is bound is covered by the groups of the two terms
    obtain ⟨q, hq, hcovers⟩ := h.covered p.1 hpp (by simp [binding?, empty]) (by rw [hb]; exact Option.some_ne_none _)
    rw [List.mem_singleton.mp hq] at hcovers
    obtain ⟨d, hd⟩ := hgroups.exists_reads hP (hgroups.agreement.grounded_of_covers hground hcovers) p.1
      (hgroups.agreement.refl hpp)
    refine (hgroups.eventually_substN hP hd hpp).mono fun n hn => ?_
    rw [Term.expression_of_isVar hvar] at hn
    rw [solved, hn]
    exact hgroups.settled_of_reads hP hd hpp
  filter_upwards [Groups.eventually_forall_mem hsolutions, hgroups.eventually_substN hP hs hps,
    hgroups.eventually_substN hP ht hpt] with n hn hsn htn
  refine ⟨fun x => ?_, ?_⟩
  · rcases b.solution_cases x with hx | ⟨p, hp, rfl⟩
    · rw [solved, Expression.substN_var (solution_of_forall_ne hx)]
      intro y hy
      rw [List.mem_singleton.mp hy]
      exact hx
    · exact hn p hp
  · rw [Expression.substN_eq_subst] at hsn htn
    exact hsn.trans ((hgroups.reads_congr hP hs hst ht).trans htn.symm)

end Bindings.Unites

namespace World

variable {world : World} {n : Nat} {r : Bool}

/-- The term is a node of one of the stores and has no binders. -/
def Plain (world : World) (t : Term) : Prop := world.Has t ∧ t.tree.binderFree = true

theorem Sound.plain_family (h : world.Sound) : Term.Family world.Plain where
  child ht hc := ⟨h.family.child ht.1 hc, Term.binderFree_child ht.2 hc⟩
  unique ht hu := h.family.unique ht.1 hu.1

/-- **Unification finds a most general unifier if there is any.** Of terms without binders there is a unifier by finite
trees exactly if unification succeeds and the term can be inserted with what has been bound. Then the solutions, applied
until no bound variable is left, are a unifier, and to apply any unifier after them is to apply it alone. -/
theorem mostGeneral_of_reachable (h : world.Reachable) (hs : world.Has s) (ht : world.Has t)
    (hfs : s.tree.binderFree = true) (hft : t.tree.binderFree = true)
    (hrun : Bindings.empty.unify n s t = some (r, b)) (scope : Nat) (journal : Journal) :
    ((∃ (ν : Type) (τ : NodeId → Expression ν), Unifies τ s t) ↔
      r = true ∧ ∃ u bench, Work.insert b.links s ⟨world.stores scope, journal⟩ = (.ok u, bench)) ∧
    ((∃ (ν : Type) (τ : NodeId → Expression ν), Unifies τ s t) →
      ∃ k, ∀ m ≥ k, (∀ x, b.Settled (b.solved m x)) ∧ Unifies (b.solved m) s t ∧
        ∀ (ν : Type) (τ : NodeId → Expression ν), Unifies τ s t → ∀ x, τ x = (b.solved m x).subst τ) := by
  have hP := h.sound.plain_family
  have hfree : ∀ {t : Term}, world.Plain t → t.tree.binderFree = true := fun ht => ht.2
  have hdecided := Bindings.unify_decides hP (.start world.Plain) ⟨hs, hfs⟩ ⟨ht, hft⟩ hrun
  -- a call without success has refuted every agreement, and so every unifier
  have hsuccess : ∀ {ν : Type} {τ : NodeId → Expression ν}, Unifies τ s t → r = true := by
    intro ν τ hτ
    have hS := Agreement.of_unifier hP hfree τ
    by_contra hr
    exact hdecided.refuted (Bool.eq_false_of_not_eq_true hr) _ hS hS.alone_le
      (Bindings.forall_pair ⟨⟨hs, hfs⟩, ⟨ht, hft⟩, hτ⟩)
  have hinserts : ∀ {R : Term → Term → Prop},
      Bindings.Unites world.Plain .empty (Alone world.Plain) [(s, t)] b R →
      ((∃ u bench, Work.insert b.links s ⟨world.stores scope, journal⟩ = (.ok u, bench)) ↔
        Grounded R s) := by
    intro R hunites
    have hlinks : ∀ u next, b.links.link? u = some next → world.Has next := fun u next hl =>
      (hunites.groups.values u.id next hl).1
    exact (h.sound.inserts_iff hlinks hs journal).trans (hunites.groups.exists_copied_iff hP ⟨hs, hfs⟩)
  constructor
  · constructor
    · rintro ⟨ν, τ, hτ⟩
      obtain ⟨R, hunites⟩ := hdecided.united (hsuccess hτ)
      exact ⟨hsuccess hτ, (hinserts hunites).mpr (hunites.grounded_of_unifies hP hfree hτ)⟩
    · rintro ⟨hr, hinsert⟩
      obtain ⟨R, hunites⟩ := hdecided.united hr
      obtain ⟨m, -, hunifies⟩ := (hunites.eventually_unifies hP ((hinserts hunites).mp hinsert)).exists
      exact ⟨_, _, hunifies⟩
  · rintro ⟨ν, τ, hτ⟩
    obtain ⟨R, hunites⟩ := hdecided.united (hsuccess hτ)
    obtain ⟨k, hk⟩ := eventually_atTop.mp (hunites.eventually_unifies hP (hunites.grounded_of_unifies hP hfree hτ))
    exact ⟨k, fun m hm => ⟨(hk m hm).1, (hk m hm).2, fun ν τ hτ => hunites.unifier_factors hP hfree hτ m⟩⟩

/-- `f(x, x)` of store 0 and `f(g(y), z)` of store 1 have a most general unifier. -/
theorem mostGeneral_of_repeated :
    let world := stocked [(0, .fn "f" [.var "x", .var "x"]), (1, .fn "f" [.fn "g" [.var "y"], .var "z"])]
    ∃ s t b, world.Has s ∧ s.tree = .fn "f" [.var "x", .var "x"] ∧ world.Has t ∧
      t.tree = .fn "f" [.fn "g" [.var "y"], .var "z"] ∧ Bindings.empty.unify 3 s t = some (true, b) ∧
      ∃ k, ∀ m ≥ k, Unifies (b.solved m) s t ∧
        ∀ (ν : Type) (τ : NodeId → Expression ν), Unifies τ s t → ∀ x, τ x = (b.solved m x).subst τ := by
  intro world
  have hreach : world.Reachable := stocked_reachable _
  have hrun : ((world.stores 0).nodes[1]?.any fun s => (world.stores 1).nodes[3]?.any fun t =>
      decide (s.tree = .fn "f" [.var "x", .var "x"] ∧ t.tree = .fn "f" [.fn "g" [.var "y"], .var "z"]) &&
        (Bindings.empty.unify 3 s t).any fun p => p.1 &&
          passes (Work.insert p.2.links s { store := world.stores 2 }) fun _ _ => true) = true := by
    decide +kernel
  simp only [Option.any_eq_true, Bool.and_eq_true, decide_eq_true_eq] at hrun
  obtain ⟨s, hs, t, ht, ⟨hstree, httree⟩, ⟨r, b⟩, hst, rfl, hpasses⟩ := hrun
  obtain ⟨u, bench, hinsert, -⟩ := exists_of_passes hpasses
  have hshas := (hreach.sound.has_of_owns ((hreach.sound.stores 0).1.owns_of_getElem? hs)).1
  have hthas := (hreach.sound.has_of_owns ((hreach.sound.stores 1).1.owns_of_getElem? ht)).1
  obtain ⟨hiff, hgeneral⟩ :=
    mostGeneral_of_reachable hreach hshas hthas (by rw [hstree]; rfl) (by rw [httree]; rfl) hst 2 #[]
  obtain ⟨k, hk⟩ := hgeneral (hiff.mpr ⟨rfl, u, bench, hinsert⟩)
  exact ⟨s, t, b, hshas, hstree, hthas, httree, hst, k, fun m hm => (hk m hm).2⟩

end World

end TermGraph
