import TermGraph.Proofs.Rewriting.Reading

/-!
# One step of settling a term

Settling goes by steps of two kinds. Where a child has changed, the term is rebuilt over what its children became.
That never fails, since by then the children lead to normal forms. Otherwise the term is rewritten at the root.

## Main statements

* `Reduction.reduceChildren_settles` — what reducing the children achieves
* `Reduction.insert_rebuilds` — **rebuilding gives another term, which may replace the term**
* `Reduction.advanceAtRoot_settles` — rewriting at the root gives another term, unless the term is a value
* `Reduction.advance_settles` — **what one step makes of a term**
-/

namespace TermGraph

variable {C : Custody} {rules : List Rule} {frames outer terms : List Term} {session session' : Session}
  {t u e next : Term} {catches sure : Prop} {bound : Nat}

/-! ## How knowledge grows -/

theorem Cache.Follows.setLink {cache : Cache} (hl : cache.link? t = none) (hnext : cache.link? next = none)
    (hne : next.id ≠ t.id) : cache.Follows (cache.setLink t next) where
  normal _ h := h
  linked _ := link?_setLink_ne_none t next
  leads u e he := by
    have hu := leads_setLink hl (.stay hnext) hne he
    have hself := leads_setLink hl (.stay hnext) hne (.stay he.unlinked)
    exact ⟨_, hself, hu⟩
  evaluating _ := rfl

theorem Cache.Follows.addNormal (cache : Cache) (t : Term) : cache.Follows (cache.addNormal t) where
  normal u h := (isNormal_addNormal cache t u).mpr (Or.inr h)
  linked _ h := h
  leads _ e he := ⟨e, Leads.congr (.stay he.unlinked) fun _ => rfl, he.congr fun _ => rfl⟩
  evaluating _ := rfl

/-! ## Children -/

/-- The children are reduced; whether one of them is linked is known. -/
structure ChildrenSettled (children : List Term) (changed : Bool) (session : Session) : Prop where
  leads : ∀ c ∈ children, ∃ e, session.cache.Leads c e ∧ session.cache.isNormal e = true
  linked : changed = true → ∃ c ∈ children, session.cache.link? c ≠ none
  unlinked : changed = false → ∀ c ∈ children, session.cache.link? c = none

/-- Where no child is linked, the children are normal forms. -/
theorem ChildrenSettled.normal {children : List Term} (h : ChildrenSettled children false session) :
    ∀ c ∈ children, session.cache.isNormal c = true := by
  intro c hc
  obtain ⟨e, he, hn⟩ := h.leads c hc
  rwa [he.eq_of_unlinked (h.unlinked rfl c hc)] at hn

namespace Reduction

variable {reduce : Term → Reduction Term} {rewriter : Rewriter}

theorem reduceChildren_settles (hreduce : Settler C rules catches sure bound reduce) :
    ∀ {children : List Term} {session : Session}, children ⊆ t.children →
      Standing C rules (t :: outer) session → session.Accounts (t :: outer) →
      (sure → Clear rules bound (t :: outer) session ∧
        ∀ c ∈ children, ∃ v, evaluate rules c.scope bound c.tree = some v) →
      (settling C rules (t :: outer)).Yields (reduceChildren reduce t children) session
        (fun changed session' => session'.Accounts (t :: outer) ∧
          ChildrenSettled children changed session' ∧ (sure → session'.bench.journal.Quiet))
        (Unsettled catches sure outer) := by
  intro children
  induction children with
  | nil =>
    intro session _ hs hacc hsure
    exact .pure hs ⟨hacc, ⟨by simp, by simp, by simp⟩, fun h => (hsure h).1.quiet⟩
  | cons child children ih =>
    intro session hsub hs hacc hsure
    have hmem : child ∈ t.children := hsub List.mem_cons_self
    unfold reduceChildren
    have hchild := hreduce hs hacc (hs.canonical.owns_child (hs.owns t List.mem_cons_self) hmem)
      (fun f hf => by
        rw [List.head?_cons, Option.mem_some] at hf
        exact Or.inr (hf ▸ hmem))
      fun h => ⟨(hsure h).1, (hsure h).2 child List.mem_cons_self⟩
    refine .bind (below_yields hchild ?_ fun fault _ hno hF =>
      ⟨fun cycle he => absurd he (hno cycle), hF.unsure⟩) ?_
    · intro cycle session' hF
      refine ⟨fun cycle' he hcatches => ?_, hF.unsure⟩
      cases he
      have haccounts := hF.accounts cycle rfl hcatches
      rwa [Cycle.chain_append, List.append_assoc, List.singleton_append]
    rintro u session₁ hs₁ hp₁ ⟨-, hn₁, hlead₁, hacc₁, hquiet₁⟩
    refine readCache ?_
    refine .bind (ih (fun c hc => hsub (List.mem_cons_of_mem _ hc)) hs₁ hacc₁
      fun h => ⟨(hsure h).1.later (hquiet₁ h), fun c hc => (hsure h).2 c (List.mem_cons_of_mem _ hc)⟩) ?_
    rintro others session₂ hs₂ hp₂ ⟨hacc₂, hothers, hquiet₂⟩
    have hlead₂ := hp₂.cache.leads_normal hs₂.orderly.unlinked hlead₁ hn₁
    have hn₂ := hp₂.cache.normal u hn₁
    refine .pure hs₂ ⟨hacc₂, ⟨fun c hc => ?_, fun hchanged => ?_, fun hsame c hc => ?_⟩, hquiet₂⟩
    · rcases List.mem_cons.mp hc with rfl | hc
      · exact ⟨u, hlead₂, hn₂⟩
      · exact hothers.leads c hc
    · rcases Bool.or_eq_true_iff.mp hchanged with hlinked | hchanged
      · refine ⟨child, List.mem_cons_self, hp₂.cache.linked child ?_⟩
        exact Option.isSome_iff_ne_none.mp hlinked
      · obtain ⟨c, hc, hl⟩ := hothers.linked hchanged
        exact ⟨c, List.mem_cons_of_mem _ hc, hl⟩
    · obtain ⟨hunlinked, hsame⟩ := Bool.or_eq_false_iff.mp hsame
      rcases List.mem_cons.mp hc with rfl | hc
      · -- a child that was not linked was a normal form itself
        have hl : session₁.cache.link? c = none := by
          rwa [Option.isSome_eq_false_iff, Option.isNone_iff_eq_none] at hunlinked
        rw [hlead₁.eq_of_unlinked hl] at hn₂
        exact hs₂.orderly.unlinked c hn₂
      · exact hothers.unlinked hsame c hc

end Reduction

/-! ## Rebuilding -/

/-- A term that leads to a normal form is copied as that normal form. -/
theorem Standing.copied_of_leads (hs : Standing C rules frames session) (hl : session.cache.Leads t e)
    (he : session.bench.store.Owns e) (hn : session.cache.isNormal e = true) :
    session.cache.asLinks.Copied session.bench.store.scope t e.tree := by
  obtain ⟨n, hl⟩ := hl
  induction hl with
  | stay _ =>
    refine Links.copied_of_normal hs.canonical hs.orderly (fun v _ hvn => ⟨?_, ?_⟩) he hn
    · exact hs.orderly.not_evaluating hvn
    · exact hs.orderly.unlinked v hvn
  | @follow n t next e link _ ih =>
    refine .linked ?_ link (ih he hn)
    show session.cache.isEvaluating t = false
    refine Bool.eq_false_iff.mpr fun hev => ?_
    rw [(hs.orderly.idle t hev).1] at link
    cases link

/-- What a term leads to belongs to the store if the term does. -/
theorem Standing.owns_of_leads (hs : Standing C rules frames session) (ht : session.bench.store.Owns t)
    (hl : session.cache.Leads t e) : session.bench.store.Owns e := by
  obtain ⟨hhas, hscope⟩ := hs.orderly.leads_has (C.of_owns ht) hl
  exact C.owns hhas (Store.contains_iff.mpr (hscope.trans (hs.canonical.scope_eq ht)))

theorem Shape.eq_of_map_eq_map {α β : Type} {f g : α → β} {s : Shape α} (h : s.map f = s.map g) :
    ∀ a ∈ s.children, f a = g a := by
  have hchildren := congrArg Shape.children h
  rw [Shape.children_map, Shape.children_map] at hchildren
  exact List.map_inj_left.mp hchildren

/-- The term may be replaced by the other, which it rewrites to and which is a node of the store and not the term
itself, and one of the two is ready to be rewritten. -/
structure Replaces (rules : List Rule) (t next : Term) (session : Session) : Prop where
  owns : session.bench.store.Owns next
  ne : next.id ≠ t.id
  derives : Derives rules t.scope t.tree next.tree
  leap : session.bench.journal.Quiet → Leap rules t.scope t.tree next.tree
  ripe : session.bench.journal.Quiet → Ripe rules t.scope t.tree ∨ Ripe rules t.scope next.tree

namespace Reduction

variable {reduce : Term → Reduction Term} {rewriter : Rewriter}

/-- Rebuilding a term over what its children became gives another term, which is made of just that, and never fails. -/
theorem insert_rebuilds (hs : Standing C rules (t :: outer) session) (hacc : session.Accounts (t :: outer))
    (he : session.cache.isEvaluating t = false) (hc : ChildrenSettled t.children true session) :
    (settling C rules (t :: outer)).Yields (work (Work.insert session.cache.asLinks t)) session
      (fun next session' => session'.Accounts (t :: outer) ∧ Replaces rules t next session' ∧
        (session.bench.journal.Quiet → session'.bench.journal.Quiet) ∧
        ∃ end_ : Term → Term, (∀ c ∈ t.children, session.cache.Leads c (end_ c)) ∧
          next.tree = .ofShape (t.shape.map fun c => (end_ c).tree))
      (fun _ _ => False) := by
  have ht := hs.owns t List.mem_cons_self
  have hlink := (hs.unfinished t List.mem_cons_self).1
  have hscope := hs.canonical.scope_eq ht
  choose! end_ hlead hnormal using hc.leads
  have howns : ∀ c ∈ t.children, session.bench.store.Owns (end_ c) := fun c hcm =>
    hs.owns_of_leads (hs.canonical.owns_child ht hcm) (hlead c hcm)
  have hcopied : session.cache.asLinks.Copied session.bench.store.scope t
      (.ofShape (t.shape.map fun c => (end_ c).tree)) := by
    have hpend : session.cache.asLinks.isPending t = false := he
    have hnode := Links.Copied.node (fun c => (end_ c).tree) hpend hlink fun c hcm =>
      hs.copied_of_leads (hlead c hcm) (howns c hcm) (hnormal c hcm)
    rwa [hscope, Tree.adopted_own] at hnode
  refine (work_settles hs hacc (.insert _ _)
    (Work.insert_yields hs.canonical hs.orderly.within (C.of_owns ht))).mono ?_ ?_
  · rintro next session' hs' hp' ⟨⟨hnext, hcopy⟩, -, hacc', hquiet⟩
    have htree := hcopy.unique hcopied
    -- a child that is linked has become another node, so it has another tree
    obtain ⟨c, hcm, hcl⟩ := hc.linked rfl
    have hne : (end_ c).tree ≠ c.tree := by
      intro heq
      have hcc := hs.canonical.eq_of_tree_eq (howns c hcm) (hs.canonical.owns_child ht hcm) heq
      exact hcl (hcc ▸ (hlead c hcm).unlinked)
    refine ⟨hacc', ⟨hnext, fun hid => ?_, ?_, fun hq => ?_, fun hq => Or.inr fun d hd => ?_⟩, hquiet,
      end_, hlead, htree⟩
    · have hsame : next = t := hnext.eq_of_id_eq (ht.mono hp'.work.1) hid
      rw [hsame, Term.tree_eq_ofShape] at htree
      exact hne (Shape.eq_of_map_eq_map (Tree.ofShape_injective htree) c hcm).symm
    · rw [htree, Term.tree_eq_ofShape t]
      refine .of_shape fun a ha => ?_
      have hderives := hs.derives (C.of_owns (hs.canonical.owns_child ht ha)) (hlead a ha)
      rwa [C.scope_child hs.canonical (C.of_owns ht) ha] at hderives
    · rw [htree, Term.tree_eq_ofShape t]
      refine Leap.of_shape (fun a ha => ?_) ⟨c, hcm, hne⟩
      have hval := (hs.reads (hq.earlier hp'.work.2)).evaluates hs.canonical hs.orderly
        (C.of_owns (hs.canonical.owns_child ht ha)) (hlead a ha) (hnormal a ha)
      rwa [C.scope_child hs.canonical (C.of_owns ht) ha] at hval
    · rw [htree, Tree.children, Tree.shape_ofShape, Shape.children_map, List.mem_map] at hd
      obtain ⟨a, ha, rfl⟩ := hd
      have hval := (hs.reads (hq.earlier hp'.work.2)).value hs.canonical (C.of_owns (howns a ha))
        (hnormal a ha)
      rwa [hs.canonical.scope_eq (howns a ha), ← hscope] at hval
  · rintro fault session' - - ⟨⟨-, -, hno⟩, -, -⟩
    exact hno ⟨_, hcopied⟩

end Reduction

/-! ## One step -/

/-- What a term becomes in one step: nothing, if it is a value whose children are normal forms, or a term that
may replace it. -/
structure Advanced (rules : List Rule) (sure : Prop) (outer : List Term) (t : Term) (r : Option Term)
    (session : Session) : Prop where
  accounts : session.Accounts (t :: outer)
  once : t ∉ outer
  children : r = none → ∀ c ∈ t.children, session.cache.isNormal c = true
  value : r = none → session.bench.journal.Quiet → Evaluates rules t.scope t.tree t.tree
  replaces : ∀ next ∈ r, Replaces rules t next session
  quiet : sure → session.bench.journal.Quiet

/-- The children of a term are values if they are normal forms. -/
theorem Standing.ripe (hs : Standing C rules frames session) (ht : session.bench.store.Owns t)
    (hq : session.bench.journal.Quiet) (hc : ∀ c ∈ t.children, session.cache.isNormal c = true) :
    Ripe rules t.scope t.tree := by
  intro c hcm
  rw [Term.children_tree, List.mem_map] at hcm
  obtain ⟨c, hcm, rfl⟩ := hcm
  rw [← C.scope_child hs.canonical (C.of_owns ht) hcm]
  exact (hs.reads hq).value hs.canonical (C.of_owns (hs.canonical.owns_child ht hcm)) (hc c hcm)

namespace Reduction

variable {reduce : Term → Reduction Term} {rewriter : Rewriter}

/-- The reduct of the term at the root, which has to be another term. -/
def advanceAtRoot (rewriter : Rewriter) (reduce : Term → Reduction Term) (t : Term) :
    Reduction (Option Term) := do
  match ← evaluating t (rewriter.rewrite reduce t) with
  | none => return none
  | some reduct =>
    if reduct.id = t.id then throw (.cycle { origin := t }) else return some reduct

theorem advance_eq (rewriter : Rewriter) (reduce : Term → Reduction Term) (t : Term) :
    advance rewriter reduce t = (do
      if ← reduceChildren reduce t t.children then
        return some (← work (Work.insert (← cache).asLinks t))
      else
        advanceAtRoot rewriter reduce t) := rfl

/-- Rewriting a term whose children are normal forms gives a term that may replace it, unless the term is a value. -/
theorem advanceAtRoot_settles
    (hreduce : Settler C rewriter.rules (catchesCycles rewriter) sure bound reduce)
    (hs : Standing C rewriter.rules (t :: outer) session) (hacc : session.Accounts (t :: outer))
    (he : session.cache.isEvaluating t = false) (honce : t ∉ outer)
    (hnormal : ∀ c ∈ t.children, session.cache.isNormal c = true)
    (hsure : sure → Clear rewriter.rules bound (t :: outer) session ∧
      ∃ v, evaluate rewriter.rules t.scope (bound + 1) t.tree = some v) :
    (settling C rewriter.rules (t :: outer)).Yields (advanceAtRoot rewriter reduce t) session
      (Advanced rewriter.rules sure outer t) (Unsettled (catchesCycles rewriter) sure outer) := by
  have ht := hs.owns t List.mem_cons_self
  have hripe : sure → Ripe rewriter.rules t.scope t.tree := fun h => hs.ripe ht (hsure h).1.quiet hnormal
  have hrewrite := evaluating_settles (x := rewriter.rewrite reduce t) hs he honce fun hbegin =>
    rewriter_settles hreduce ⟨hbegin, fun u v e hl hlead => hacc u v e hl (hlead.congr fun _ => rfl),
      (session.cache.isEvaluating_beginEvaluating t t).mpr (Or.inl rfl), hnormal⟩
      (hs.canonical.scope_eq ht).symm fun h => by
        obtain ⟨hclear, v, hv⟩ := hsure h
        obtain ⟨-, r, hr, -⟩ := (hripe h).evaluate_iff.mp hv
        exact ⟨hclear.later hclear.quiet, r, hr⟩
  unfold advanceAtRoot
  refine .bind (hrewrite.mono_fault ?_) ?_
  · rintro fault session₁ - - ⟨inner, hF, rfl⟩
    refine ⟨fun cycle hcycle hcatches u v e hl hlead => ?_, hF.unsure⟩
    exact hF.accounts cycle hcycle hcatches u v e hl (hlead.congr fun _ => rfl)
  rintro r session₁ hs₁ hp₁ ⟨inner, houtcome, rfl⟩
  have ht₁ := hs₁.owns t List.mem_cons_self
  have hacc₁ : ({ inner with cache := inner.cache.endEvaluating t } : Session).Accounts (t :: outer) :=
    fun u v e hl hlead => houtcome.accounts u v e hl (hlead.congr fun _ => rfl)
  have hnormal₁ := fun c hc => hp₁.cache.normal c (hnormal c hc)
  have hripe₁ := fun hq => hs₁.ripe ht₁ hq hnormal₁
  cases r with
  | none =>
    refine .pure hs₁ ⟨hacc₁, honce, fun _ => hnormal₁, fun _ hq => ?_, by simp, houtcome.quiet⟩
    obtain ⟨n, hn⟩ := houtcome.reads hq
    exact (hripe₁ hq).evaluates_self hn
  | some reduct =>
    have hleap : inner.bench.journal.Quiet → Leap rewriter.rules t.scope t.tree reduct.tree := by
      intro hq
      obtain ⟨n, hn⟩ := houtcome.reads hq
      exact Leap.of_step (hripe₁ hq) hn
    dsimp only
    split
    · next hid =>
      refine .throw hs₁ ⟨fun cycle hcycle _ => ?_, fun h => ?_⟩
      · cases hcycle
        exact hacc₁
      · -- a reduct has its value within a smaller bound
        have hsame : reduct = t := (houtcome.owns reduct rfl).eq_of_id_eq ht₁ hid
        obtain ⟨v, hv⟩ := (hsure h).2
        have hless := (hleap (houtcome.quiet h)).descends (hripe h) hv
        rw [hsame, (hsure h).1.valueless t List.mem_cons_self] at hless
        cases hless
    · next hne =>
      refine .pure hs₁ ⟨hacc₁, honce, by simp, by simp, fun u hu => ?_, houtcome.quiet⟩
      rw [Option.mem_some] at hu
      subst hu
      exact ⟨houtcome.owns reduct rfl, hne, houtcome.derives reduct rfl, hleap, fun hq => Or.inl (hripe₁ hq)⟩

/-- **What one step makes of a term.** -/
theorem advance_settles (hreduce : Settler C rewriter.rules (catchesCycles rewriter) sure bound reduce)
    (hs : Standing C rewriter.rules (t :: outer) session) (hacc : session.Accounts (t :: outer))
    (he : session.cache.isEvaluating t = false)
    (hsure : sure → Clear rewriter.rules bound (t :: outer) session ∧
      ∃ v, evaluate rewriter.rules t.scope (bound + 1) t.tree = some v) :
    (settling C rewriter.rules (t :: outer)).Yields (advance rewriter reduce t) session
      (Advanced rewriter.rules sure outer t) (Unsettled (catchesCycles rewriter) sure outer) := by
  rw [advance_eq]
  refine .bind (reduceChildren_settles hreduce (List.Subset.refl _) hs hacc fun h => ⟨(hsure h).1, ?_⟩) ?_
  · intro c hc
    obtain ⟨v, hv⟩ := (hsure h).2
    obtain ⟨g, hg, -⟩ := evaluate_succ_iff.mp hv
    rw [Term.children_tree] at hg
    rw [C.scope_child hs.canonical (C.of_owns (hs.owns t List.mem_cons_self)) hc]
    exact ⟨_, hg _ (List.mem_map_of_mem hc)⟩
  rintro changed session₁ hs₁ hp₁ ⟨hacc₁, hchildren, hquiet₁⟩
  have he₁ := (hp₁.cache.evaluating t).trans he
  have honce := hs₁.not_mem he₁ hchildren.leads
  cases changed with
  | true =>
    rw [if_pos rfl]
    refine readCache ?_
    refine .bind ((insert_rebuilds hs₁ hacc₁ he₁ hchildren).mono_fault fun _ _ _ _ hF => hF.elim) ?_
    rintro next session₂ hs₂ - ⟨hacc₂, hnext, hquiet₂, -⟩
    refine .pure hs₂ ⟨hacc₂, honce, by simp, by simp, fun u hu => ?_, fun h => hquiet₂ (hquiet₁ h)⟩
    rw [Option.mem_some] at hu
    exact hu ▸ hnext
  | false =>
    rw [if_neg Bool.false_ne_true]
    exact advanceAtRoot_settles hreduce hs₁ hacc₁ he₁ honce hchildren.normal fun h =>
      ⟨(hsure h).1.later (hquiet₁ h), (hsure h).2⟩

end Reduction

end TermGraph
