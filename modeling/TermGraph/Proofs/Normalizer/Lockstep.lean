import TermGraph.Proofs.Insertion.Crossing
import TermGraph.Proofs.Normalizer.Coupled
import TermGraph.Proofs.Rewriting.Reduct

/-!
# Normalization in lockstep

From coupled sessions, mirrored nodes are rewritten, reduced and normalized in lockstep: rule by rule, condition by
condition and step by step, with as many steps to go.

## Main statements

* `Reduction.rewriter_couples` — mirrored nodes are rewritten alike
* `Reduction.settle_couples`, `Reduction.normalize_couples` — **mirrored nodes are reduced and normalized alike**
-/

namespace TermGraph

variable {ρ : Equiv.Perm Nat} {C : Custody} {own : Nat} {rules : List Rule} {here there here' there' : Store}
  {x y u v : Term} {s t : Session} {b b' : Bindings} {reduce : Term → Reduction Term}

/-! ## Rules apart from both stores -/

/-- The rule's store is not `own` and keeps its scope, and the template counts no binders of a renamed scope. -/
structure PatternRule.Apart (ρ : Equiv.Perm Nat) (own : Nat) (rule : PatternRule) : Prop where
  store : rule.store.scope ≠ own
  fixed : ρ rule.store.scope = rule.store.scope
  template : rule.template.tree.Spared ρ

/-- The rule has a store apart, and what it inserts counts no binders of a renamed scope. -/
def Rule.Apart (ρ : Equiv.Perm Nat) (own : Nat) : Rule → Prop
  | .pattern rule => rule.Apart ρ own
  | .conditional rule conditions _ => rule.Apart ρ own ∧ ∀ c ∈ conditions, c.lhs.tree.Spared ρ
  | .contraction => True

/-- Both sides of the condition may be given to both stores, and the left side may be inserted. -/
structure Condition.Aside (C : Custody) (ρ : Equiv.Perm Nat) (here there : Store) (c : Condition) : Prop where
  lhs : c.lhs.Aside C ρ here there
  rhs : c.rhs.Aside C ρ here there
  spared : c.lhs.tree.Spared ρ

theorem Condition.Aside.mono {c : Condition} (h : c.Aside C ρ here there) (hle : here ≤ here')
    (hle' : there ≤ there') : c.Aside C ρ here' there' :=
  ⟨h.lhs.mono hle hle', h.rhs.mono hle hle', h.spared⟩

/-- A term of the rule's store may be given to both stores. -/
theorem PatternRule.Apart.aside {rule : PatternRule} {q : Term} (h : rule.Apart ρ own) (hown : here.scope = own)
    (hscope : q.scope = rule.store.scope) (hleft : C.has here q) (hright : C.has there q) :
    q.Aside C ρ here there where
  left := hleft
  right := hright
  apart := by rw [hscope, hown]; exact h.store
  fixed := by rw [hscope, h.fixed]

namespace Reduction

/-! ## Rewriting -/

/-- A way to reduce terms that does so alike with mirrored nodes of coupled sessions. -/
def Lockstep (C : Custody) (ρ : Equiv.Perm Nat) (own : Nat) (rules : List Rule)
    (reduce : Term → Reduction Term) : Prop :=
  ∀ {s t : Session} {x y : Term}, Coupled C ρ own rules s t → s.Mirror ρ t x y →
    (coupling C ρ own rules).Couples (reduce x) (reduce y) s t fun u v s' t' => s'.Mirror ρ t' u v

theorem checkConditions_couples (hreduce : Lockstep C ρ own rules reduce) (x y : Term) :
    ∀ (conditions : List Condition) {b b' : Bindings} {s t : Session}, Coupled C ρ own rules s t →
      b.Mirror (s.Aside C ρ t) (s.Mirror ρ t) b' →
      (∀ c ∈ conditions, c.Aside C ρ s.bench.store t.bench.store) →
      (coupling C ρ own rules).Couples (checkConditions reduce x conditions b) (checkConditions reduce y conditions b')
        s t fun r r' s' t' => Option.Rel (Bindings.Mirror (s'.Aside C ρ t') (s'.Mirror ρ t')) r r'
  | [], _, _, _, _, hs, hb, _ => .pure hs (.some hb)
  | c :: conditions, b, b', s, t, hs, hb, hc => by
    have hcond := hc c List.mem_cons_self
    unfold checkConditions
    refine readCache_couples ?_
    refine .bind (insert_couples hs (hs.within_both hb) (fun _ _ h => hs.mates_both hb h)
      (.aside hcond.lhs hcond.spared)) ?_
    rintro lhs lhs' s₁ t₁ hs₁ hg₁ hlhs
    refine .bind (hreduce hs₁ hlhs) ?_
    rintro nf nf' s₂ t₂ hs₂ hg₂ hnf
    have hle := le_trans hg₁.1.1 hg₂.1.1
    have hle' := le_trans hg₁.2.1 hg₂.2.1
    refine .bind (tryMatch_couples hs₂ (hb.mono (fun _ hq => hq.mono hle hle') fun _ _ hM => hM.mono hle hle')
      (hcond.rhs.mono hle hle') hnf) ?_
    rintro ⟨success, b₃⟩ ⟨success', b₃'⟩ s₃ t₃ hs₃ hg₃ ⟨hsuccess, hb₃⟩
    dsimp only at hsuccess ⊢
    subst hsuccess
    split
    · exact checkConditions_couples hreduce x y conditions hs₃ hb₃ fun d hd =>
        (hc d (List.mem_cons_of_mem _ hd)).mono (le_trans hle hg₃.1.1) (le_trans hle' hg₃.2.1)
    · exact .bind (record_couples hs₃ _ _) fun _ _ s₄ t₄ hs₄ _ _ => .pure hs₄ .none

theorem rewriteIf_couples (hreduce : Lockstep C ρ own rules reduce) (hs : Coupled C ρ own rules s t)
    {rule : PatternRule} {conditions : List Condition} (hp : rule.pattern.Aside C ρ s.bench.store t.bench.store)
    (ht : rule.template.Aside C ρ s.bench.store t.bench.store) (hspared : rule.template.tree.Spared ρ)
    (hc : ∀ c ∈ conditions, c.Aside C ρ s.bench.store t.bench.store) (hxy : s.Mirror ρ t x y) :
    (coupling C ρ own rules).Couples (rewriteIf reduce rule conditions x) (rewriteIf reduce rule conditions y) s t
      fun r r' s' t' => Option.Rel (s'.Mirror ρ t') r r' := by
  unfold rewriteIf
  refine .bind (tryMatch_couples hs .empty hp hxy) ?_
  rintro ⟨success, b⟩ ⟨success', b'⟩ s₁ t₁ hs₁ hg₁ ⟨hsuccess, hb⟩
  dsimp only at hsuccess ⊢
  subst hsuccess
  split
  · refine .bind (checkConditions_couples hreduce x y conditions hs₁ hb fun c hcm =>
      (hc c hcm).mono hg₁.1.1 hg₁.2.1) ?_
    rintro r r' s₂ t₂ hs₂ hg₂ hr
    cases hr with
    | none => exact .pure hs₂ .none
    | some hb₂ =>
      refine readCache_couples ?_
      have htemplate := ht.mono (le_trans hg₁.1.1 hg₂.1.1) (le_trans hg₁.2.1 hg₂.2.1)
      refine .bind (insert_couples hs₂ (hs₂.within_both hb₂) (fun _ _ h => hs₂.mates_both hb₂ h)
        (.aside htemplate hspared)) ?_
      exact fun u v s₃ t₃ hs₃ _ huv => .pure hs₃ (.some huv)
  · exact .pure hs₁ .none

theorem rewriteRule_couples (hreduce : Lockstep C ρ own rules reduce) (hs : Coupled C ρ own rules s t)
    (hxy : s.Mirror ρ t x y) : ∀ {rule : Rule}, rule ∈ rules → rule.Apart ρ own →
    (coupling C ρ own rules).Couples (rule.rewrite reduce x) (rule.rewrite reduce y) s t
      fun r r' s' t' => Option.Rel (s'.Mirror ρ t') r r'
  | .pattern rule, hr, hapart => by
    obtain ⟨hleft, hright⟩ := hs.rules _ hr
    exact rewriteIf_couples hreduce hs (hapart.aside hs.scope rule.scope_pattern hleft.1 hright.1)
      (hapart.aside hs.scope rule.scope_template hleft.2 hright.2) hapart.template (by simp) hxy
  | .conditional rule conditions howned, hr, hapart => by
    obtain ⟨hleft, hright⟩ := hs.rules _ hr
    refine rewriteIf_couples hreduce hs (hapart.1.aside hs.scope rule.scope_pattern hleft.1.1 hright.1.1)
      (hapart.1.aside hs.scope rule.scope_template hleft.1.2 hright.1.2) hapart.1.template (fun c hc => ?_) hxy
    have hof := Condition.of_owned howned c hc
    rw [rule.scope_pattern] at hof
    exact ⟨hapart.1.aside hs.scope hof.1 (hleft.2 c hc).1 (hright.2 c hc).1,
      hapart.1.aside hs.scope hof.2 (hleft.2 c hc).2 (hright.2 c hc).2, hapart.2 c hc⟩
  | .contraction, _, _ => contract_couples hs hxy

theorem rewriteFirst_couples (hreduce : Lockstep C ρ own rules reduce) : ∀ {rs : List Rule}
    {last last' : Option Cycle} {onlyCycles : Bool} {s t : Session}, Coupled C ρ own rules s t →
    s.Mirror ρ t x y → rs ⊆ rules → (∀ rule ∈ rs, rule.Apart ρ own) → last.isSome = last'.isSome →
    (coupling C ρ own rules).Couples (rewriteFirst reduce x rs last onlyCycles)
      (rewriteFirst reduce y rs last' onlyCycles) s t fun r r' s' t' => Option.Rel (s'.Mirror ρ t') r r' := by
  intro rs
  induction rs with
  | nil =>
    intro last last' onlyCycles s t hs _ _ _ hlast
    cases last with
    | none =>
      cases last' with
      | none => cases onlyCycles <;> exact .pure hs .none
      | some _ => cases hlast
    | some cycle =>
      cases last' with
      | none => cases hlast
      | some cycle' =>
        cases onlyCycles with
        | true => exact .throw hs (.cycle cycle cycle')
        | false => exact .pure hs .none
  | cons rule rs ih =>
    intro last last' onlyCycles s t hs hxy hsub hapart hlast
    obtain ⟨hrule, hrest⟩ := List.cons_subset.mp hsub
    have hrestApart := fun r hr => hapart r (List.mem_cons_of_mem _ hr)
    unfold rewriteFirst
    refine .bind (orCycle_couples (rewriteRule_couples hreduce hs hxy hrule (hapart rule List.mem_cons_self))) ?_
    rintro result result' s₁ t₁ hs₁ hg₁ hresult
    have hxy₁ := hxy.mono hg₁.1.1 hg₁.2.1
    cases hresult with
    | ok related =>
      cases related with
      | none => exact ih hs₁ hxy₁ hrest hrestApart hlast
      | some huv =>
        refine .bind (record_couples hs₁ _ _) fun _ _ s₂ t₂ hs₂ hg₂ _ => ?_
        exact .pure hs₂ (.some (huv.mono hg₂.1.1 hg₂.2.1))
    | error cycle cycle' =>
      refine .bind (record_couples hs₁ _ _) fun _ _ s₂ t₂ hs₂ hg₂ _ => ?_
      exact ih hs₂ (hxy₁.mono hg₂.1.1 hg₂.2.1) hrest hrestApart rfl

/-- Mirrored nodes are rewritten alike. -/
theorem rewriter_couples {rewriter : Rewriter} (hreduce : Lockstep C ρ own rules reduce)
    (hs : Coupled C ρ own rules s t) (hxy : s.Mirror ρ t x y) (hsub : rewriter.rules ⊆ rules)
    (hapart : ∀ rule ∈ rewriter.rules, rule.Apart ρ own) :
    (coupling C ρ own rules).Couples (rewriter.rewrite reduce x) (rewriter.rewrite reduce y) s t
      fun r r' s' t' => Option.Rel (s'.Mirror ρ t') r r' := by
  cases rewriter with
  | rule rule =>
    exact rewriteRule_couples hreduce hs hxy (hsub List.mem_cons_self) (hapart rule List.mem_cons_self)
  | system rs => exact rewriteFirst_couples hreduce hs hxy hsub hapart rfl

/-! ## Normalization -/

theorem reduceChildren_couples (hreduce : Lockstep C ρ own rules reduce) (parent parent' : Term) :
    ∀ {children children' : List Term} {s t : Session}, Coupled C ρ own rules s t →
      List.Forall₂ (s.Mirror ρ t) children children' →
      (coupling C ρ own rules).Couples (reduceChildren reduce parent children)
        (reduceChildren reduce parent' children') s t fun changed changed' _ _ => changed = changed' := by
  intro children
  induction children with
  | nil =>
    rintro _ s t hs (- | -)
    exact .pure hs rfl
  | cons child children ih =>
    rintro _ s t hs (- | ⟨hchild, hrest⟩)
    unfold reduceChildren
    refine .bind (below_couples (hreduce hs hchild) parent parent') fun u v s₁ t₁ hs₁ hg₁ _ => ?_
    refine readCache_couples ?_
    have hlinked := hs₁.cache.isSome_link_eq hs₁.mirroring (hchild.mono hg₁.1.1 hg₁.2.1)
    refine .bind (ih hs₁ (hrest.imp fun _ _ hM => hM.mono hg₁.1.1 hg₁.2.1)) ?_
    rintro others _ s₂ t₂ hs₂ - rfl
    exact .pure hs₂ (by rw [hlinked])

theorem advance_couples {rewriter : Rewriter} (hreduce : Lockstep C ρ own rules reduce)
    (hs : Coupled C ρ own rules s t) (hxy : s.Mirror ρ t x y) (hsub : rewriter.rules ⊆ rules)
    (hapart : ∀ rule ∈ rewriter.rules, rule.Apart ρ own) :
    (coupling C ρ own rules).Couples (advance rewriter reduce x) (advance rewriter reduce y) s t
      fun r r' s' t' => Option.Rel (s'.Mirror ρ t') r r' := by
  unfold advance
  refine .bind (reduceChildren_couples hreduce x y hs (hxy.children hs.canonical hs.canonical')) ?_
  rintro changed _ s₁ t₁ hs₁ hg₁ rfl
  have hxy₁ := hxy.mono hg₁.1.1 hg₁.2.1
  split
  · refine readCache_couples ?_
    refine .bind (insert_couples hs₁ hs₁.within (fun _ _ h => hs₁.mates h) (.mirror hxy₁)) ?_
    exact fun u v s₂ t₂ hs₂ _ huv => .pure hs₂ (.some huv)
  · have hbegin := hs₁.learn (hs₁.cache.beginEvaluating hxy₁)
    refine .bind (evaluating_couples (P := fun r r' here there => Option.Rel (Store.Mirror ρ here there) r r') hxy₁
      (rewriter_couples hreduce hbegin hxy₁ hsub hapart)) ?_
    rintro r r' s₂ t₂ hs₂ hg₂ hr
    cases hr with
    | none => exact .pure hs₂ .none
    | @some u v huv =>
      have hsame : u.id = x.id ↔ v.id = y.id := hs₂.mirroring.id_eq_iff huv (hxy₁.mono hg₂.1.1 hg₂.2.1)
      dsimp only
      by_cases hid : u.id = x.id
      · rw [if_pos hid, if_pos (hsame.mp hid)]
        exact .throw hs₂ (.cycle _ _)
      · rw [if_neg hid, if_neg fun h => hid (hsame.mpr h)]
        exact .pure hs₂ (.some huv)

variable {rewriter : Rewriter}

/-- **Mirrored nodes are settled alike.** -/
theorem settle_couples (hsub : rewriter.rules ⊆ rules) (hapart : ∀ rule ∈ rewriter.rules, rule.Apart ρ own) (n : Nat) :
    Lockstep C ρ own rules (settle rewriter n) := by
  induction n with
  | zero => exact fun hs _ => .throw hs .outOfSteps
  | succ n ih =>
    intro s t x y hs hxy
    have hreduce : Lockstep C ρ own rules (fun u => do settle rewriter n (← resolve u)) := fun hs hxy =>
      .bind (resolve_couples hs hxy) fun u v s' t' hs' _ huv => ih hs' huv
    unfold settle
    refine readCache_couples ?_
    rw [← hs.cache.isNormal_eq hs.mirroring hxy]
    split
    · exact .pure hs hxy
    · refine .bind (advance_couples hreduce hs hxy hsub hapart) ?_
      rintro r r' s₁ t₁ hs₁ hg₁ hr
      have hxy₁ := hxy.mono hg₁.1.1 hg₁.2.1
      cases hr with
      | none =>
        refine .bind (record_couples hs₁ _ _) fun _ _ s₂ t₂ hs₂ hg₂ _ => ?_
        have hxy₂ := hxy₁.mono hg₂.1.1 hg₂.2.1
        refine .bind (learn_couples hs₂ (hs₂.cache.addNormal hxy₂)) fun _ _ s₃ t₃ hs₃ hg₃ _ => ?_
        exact .pure hs₃ (hxy₂.mono hg₃.1.1 hg₃.2.1)
      | some huv =>
        refine .bind (below_couples (resolve_couples hs₁ huv) x y) fun u v s₂ t₂ hs₂ hg₂ hlast => ?_
        have hxy₂ := hxy₁.mono hg₂.1.1 hg₂.2.1
        refine .bind (learn_couples hs₂ (hs₂.cache.setLink hs₂.mirroring hxy₂ hlast)) fun _ _ s₃ t₃ hs₃ hg₃ _ => ?_
        exact ih hs₃ (hlast.mono hg₃.1.1 hg₃.2.1)

theorem reduce_couples (hsub : rewriter.rules ⊆ rules) (hapart : ∀ rule ∈ rewriter.rules, rule.Apart ρ own) (n : Nat) :
    Lockstep C ρ own rules (Reduction.reduce rewriter n) := fun hs hxy =>
  .bind (resolve_couples hs hxy) fun _ _ _ _ hs' _ huv => settle_couples hsub hapart n hs' huv

/-! ## Calls -/

theorem beside_of_coupling {α β : Type} {X : Reduction α} {Y : Reduction β} {P : α → β → Session → Session → Prop}
    (h : (coupling C ρ own rules).Couples X Y s t P) : beside.Couples X Y s t P :=
  h.relax (fun _ hs => ⟨hs.canonical, hs.canonical'⟩) fun _ hg => hg

/-- A node of the one store is its own, and the other store gets its mirror image if binding its lambdas anew comes
to a renaming. -/
theorem adopt_couples (hs : Coupled C ρ own rules s t) (hx : s.bench.store.Owns x) (hmoves : ρ own ≠ own)
    (hfill : x.tree.fill (ρ own) own .var 0 = x.tree.rename ρ) :
    (coupling C ρ own rules).Couples (work (Work.adopt x)) (work (Work.adopt x)) s t
      fun u v s' t' => s'.Mirror ρ t' u v := by
  have hforeign : ¬ t.bench.store.contains x = true := fun hc => hmoves <| by
    rw [← hs.scope', ← Store.contains_iff.mp hc, hs.canonical.scope_eq hx, hs.scope]
  have hadopt : Work.adopt x t.bench = Work.insert .none x t.bench := by
    change (if t.bench.store.contains x = true then (return x : Work Term) else Work.insert .none x) t.bench = _
    rw [if_neg hforeign]
  have hleft : working.Yields (Work.adopt x) s.bench (fun u bench => u = x ∧ bench.store.Owns u) fun _ _ => False :=
    .of_eq_ok (Work.adopt_owned (hs.canonical.contains hx)) hs.canonical (working.refl _) ⟨rfl, hx⟩
  have hright : working.Yields (Work.adopt x) t.bench
      (fun v bench => bench.store.Owns v ∧ v.tree = x.tree.rename ρ) fun _ _ => False := by
    obtain ⟨v, bench, hrun, hcanon, hgrows, hv, htree⟩ := (Work.insert_foreign hs.canonical hs.canonical' hx
      (by rw [hs.scope, hs.scope']; exact hmoves.symm)).succeeds
    refine .of_eq_ok (hadopt.trans hrun) hcanon hgrows ⟨hv, ?_⟩
    rw [htree, hs.scope, hs.scope', hfill]
  refine work_couples hs hleft hright ?_ (fun _ _ _ _ _ hF => hF) (fun _ _ _ _ hF _ => hF) fun _ _ _ _ hF _ => hF.elim
  rintro u v s' t' - - ⟨rfl, hu⟩ ⟨hv, htree⟩
  exact ⟨hu, hv, htree⟩

/-- **A node is normalized in its own store as its copy is in the other.** -/
theorem normalize_couples (hsub : rewriter.rules ⊆ rules) (hapart : ∀ rule ∈ rewriter.rules, rule.Apart ρ own) (n : Nat)
    (hs : Coupled C ρ own rules s t) (hx : s.bench.store.Owns x) (hmoves : ρ own ≠ own)
    (hfill : x.tree.fill (ρ own) own .var 0 = x.tree.rename ρ) :
    beside.Couples (normalize rewriter n x) (normalize rewriter n x) s t fun u v s' t' => s'.Mirror ρ t' u v := by
  unfold normalize
  refine .bind ((beside_of_coupling (adopt_couples hs hx hmoves hfill).sounds)) ?_
  rintro u v s₁ t₁ - - ⟨hs₁, huv⟩
  refine .bind (beside_of_coupling (record_couples hs₁ _ _).sounds) ?_
  rintro - - s₂ t₂ - hg₂ ⟨hs₂, -⟩
  have huv₂ := huv.mono hg₂.1.1 hg₂.2.1
  refine .bind (beside_of_coupling (orCycle_couples (reduce_couples hsub hapart n hs₂ huv₂)).sounds) ?_
  rintro result result' s₃ t₃ hsound₃ - ⟨hs₃, hresult⟩
  cases hresult with
  | ok related =>
    refine .bind (beside_of_coupling (record_couples hs₃ _ _)) fun _ _ s₄ t₄ hs₄ hg₄ _ => ?_
    exact .pure hs₄ (related.mono hg₄.1.1 hg₄.2.1)
  | error cycle cycle' =>
    refine .bind (beside_of_coupling (record_couples hs₃ _ _)) fun _ _ s₄ t₄ hs₄ _ _ => ?_
    have hlearn : beside.Couples (learn Cache.discardUnfinished) (learn Cache.discardUnfinished) s₄ t₄
        fun _ _ _ _ => True := .of_eq_ok rfl rfl hs₄ ⟨working.refl _, working.refl _⟩ trivial
    exact .bind hlearn fun _ _ s₅ t₅ hs₅ _ _ => .throw hs₅ (.cycle cycle cycle')

end Reduction

end TermGraph
