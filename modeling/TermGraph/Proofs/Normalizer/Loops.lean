import TermGraph.Proofs.Normalizer.Settling
import TermGraph.Proofs.Rewriting.Exploration

/-!
# Cycles are loops

Where no rule has a condition, nothing is reduced while the root of a term is being rewritten, and every link stands
for steps that were made. A chain of links that ends in no normal form ends in a term under way. The terms under
way hang together by descents and links, so coming back to one of them closes a loop of steps and descents. Rewriting
at the root fails only if every rule that applies has its own pattern in its template.

So a term over which a normalization runs into a cycle does not terminate; and the nested steps of a normalization
make a way down to children and on to other terms, on which no term is rewritten that is linked already. What is
marked as a normal form is rewritten at its root by no rule but those that may be passed over, and by these only if
another rule does not apply: where every rule runs into a cycle, the last cycle is what comes of it.

## Main statements

* `Spares` — what is known of a tree that all rules were tried on in vain
* `Tidy` — what the links say where rules have no conditions
* `Tidy.not_terminates` — **coming back to a term under way closes a loop**
* `Reduction.rewriter_makes` — rewriting at the root makes one step
* `Reduction.settle_loops`, `Reduction.normalize_loops` — **settling and normalizing fail only over a loop**
-/

namespace TermGraph

open Relation

variable {C : Custody} {rules : List Rule} {own n : Nat} {frames outer : List Term} {session session' : Session}
  {t u e next : Term}

/-! ## What the links say -/

/-- Some of the rules were tried on the tree in vain: none of them that is calm applies to it, and of all the rules there
is one that does not. -/
structure Spares (rules tried : List Rule) (own : Nat) (t : Tree Slot) : Prop where
  calm : ∀ rule ∈ tried, rule.Calm → rule.reduct? own t = none
  other : tried ≠ [] → ∃ rule ∈ rules, rule.reduct? own t = none

namespace Spares

variable {tried : List Rule} {rule : Rule} {tree : Tree Slot}

theorem nil : Spares rules [] own tree := ⟨by simp, by simp⟩

theorem single (hr : rule ∈ rules) (hnone : rule.reduct? own tree = none) : Spares rules [rule] own tree where
  calm _ hrule _ := List.mem_singleton.mp hrule ▸ hnone
  other _ := ⟨rule, hr, hnone⟩

theorem cons (hcalm : rule.Calm → rule.reduct? own tree = none) (h : Spares rules tried own tree)
    (hother : ∃ rule ∈ rules, rule.reduct? own tree = none) : Spares rules (rule :: tried) own tree where
  calm := List.forall_mem_cons.mpr ⟨hcalm, h.calm⟩
  other _ := hother

end Spares

/-- Terms rewrite to what they are linked to, and the rules were tried in vain on normal forms. -/
structure Cache.Faithful (cache : Cache) (C : Custody) (rules : List Rule) (store : Store) : Prop where
  reaches : cache.Related C (Reaches rules) store
  marks : ∀ t, cache.isNormal t = true →
    ∃ u, C.has store u ∧ u.id = t.id ∧ Spares rules rules u.scope u.tree

namespace Cache.Faithful

variable {cache : Cache} {store store' : Store}

theorem empty : Cache.empty.Faithful C rules store where
  reaches := .empty
  marks t ht := by simp [isNormal, Cache.empty] at ht

/-- Another custody may do as well. -/
theorem transfer {C' : Custody} (h : cache.Faithful C rules store) (hhas : ∀ t, C.has store t → C'.has store' t) :
    cache.Faithful C' rules store' where
  reaches := h.reaches.transfer hhas
  marks t ht := by
    obtain ⟨u, hu, hid, hspares⟩ := h.marks t ht
    exact ⟨u, hhas u hu, hid, hspares⟩

theorem setLink (h : cache.Faithful C rules store) (ht : C.has store t)
    (hsteps : Reaches rules t.scope t.tree next.tree) : (cache.setLink t next).Faithful C rules store where
  reaches := h.reaches.setLink ht hsteps
  marks := h.marks

theorem addNormal (h : cache.Faithful C rules store) (ht : C.has store t)
    (hspares : Spares rules rules t.scope t.tree) : (cache.addNormal t).Faithful C rules store where
  reaches := h.reaches
  marks u hu := by
    rcases (isNormal_addNormal cache t u).mp hu with hid | hu
    · exact ⟨t, ht, hid, hspares⟩
    · exact h.marks u hu

theorem discardUnfinished (h : cache.Faithful C rules store) : cache.discardUnfinished.Faithful C rules store where
  reaches := h.reaches.discardUnfinished
  marks := h.marks

end Cache.Faithful

/-- Nothing is being evaluated, every chain of links ends in a normal form or in one of the terms, and links and normal
forms are what they should be. -/
structure Tidy (C : Custody) (rules : List Rule) (own : Nat) (terms : List Term) (session : Session) : Prop where
  scope : session.bench.store.scope = own
  idle : ∀ t, session.cache.isEvaluating t = false
  accounts : session.cache.Accounts (· ∈ terms)
  faithful : session.cache.Faithful C rules session.bench.store

namespace Tidy

variable {terms : List Term}

theorem session_accounts (h : Tidy C rules own terms session) : session.Accounts terms :=
  Cache.Accounts.mono h.accounts fun _ he => Or.inl he

/-- More terms may be ends. -/
theorem mono {terms' : List Term} (h : Tidy C rules own terms session) (hsub : terms ⊆ terms') :
    Tidy C rules own terms' session :=
  ⟨h.scope, h.idle, h.accounts.mono fun _ he => hsub he, h.faithful⟩

/-- Work at the bench changes nothing. -/
theorem worked (h : Tidy C rules own terms session) (hle : session.bench.store ≤ session'.bench.store)
    (hc : session'.cache = session.cache) : Tidy C rules own terms session' where
  scope := (Store.scope_eq_of_le hle).trans h.scope
  idle := hc ▸ h.idle
  accounts := hc ▸ h.accounts
  faithful := hc ▸ h.faithful.transfer fun _ ht => C.mono hle ht

/-- A chain of links stands for steps. -/
theorem leads (h : Tidy C rules own terms session) (hs : Standing C rules frames session)
    (ht : session.bench.store.Owns t) (hl : session.cache.Leads t e) : Reaches rules own t.tree e.tree := by
  have hscope : t.scope = own := (hs.canonical.scope_eq ht).trans h.scope
  rcases h.faithful.reaches.leads hs.canonical hs.orderly ReflTransGen.trans (C.of_owns ht) hl with rfl | hsteps
  · exact .refl
  · exact hscope ▸ hsteps

/-- From every term of the stack there is a way to the innermost. -/
theorem inwards (h : Tidy C rules own terms session) (hs : Standing C rules (t :: outer) session) :
    ∀ f ∈ t :: outer, ReflTransGen (Descends rules own) f.tree t.tree := by
  induction outer generalizing t with
  | nil =>
    intro f hf
    rw [List.mem_singleton.mp hf]
  | cons o outer ih =>
    intro f hf
    rcases List.mem_cons.mp hf with rfl | hf
    · exact .refl
    obtain ⟨hwaits, -⟩ := List.isChain_cons_cons.mp hs.waits
    have hot : ReflTransGen (Descends rules own) o.tree t.tree := by
      rcases hwaits with he | ⟨c, hc, hl⟩
      · rw [h.idle o] at he
        cases he
      · have howns := hs.canonical.owns_child (hs.owns o (List.mem_cons_of_mem _ List.mem_cons_self)) hc
        exact .head (.of_child hc) (h.leads hs howns hl).descends
    exact (ih (hs.tail (h.idle t)) f hf).trans hot

/-- **Coming back to a term under way closes a loop.** -/
theorem not_terminates (h : Tidy C rules own terms session) (hs : Standing C rules (t :: outer) session)
    (he : e ∈ t :: outer) (hway : TransGen (Descends rules own) t.tree e.tree) : ¬ Terminates rules own t.tree :=
  not_terminates_of_loop (hway.trans_left (h.inwards hs e he))

/-- Following links fails only where they come back to a term under way. -/
theorem unfinished (h : Tidy C rules own frames session) (hl : session.cache.Leads t e)
    (hloose : session.cache.isEvaluating t = true ∨
      session.cache.link? t ≠ none ∧ session.cache.isNormal e = false) : e ∈ frames := by
  rcases hloose with he | ⟨hlinked, hn⟩
  · rw [h.idle t] at he
    cases he
  · obtain ⟨next, hnext⟩ := Option.ne_none_iff_exists'.mp hlinked
    refine (h.accounts t next e hnext hl).resolve_left ?_
    rw [hn]
    exact Bool.false_ne_true

/-- A chain of links has been cut short, or nothing has happened. -/
theorem shortened (h : Tidy C rules own terms session) (hs : Standing C rules frames session)
    (ht : session.bench.store.Owns t) (hbench : session'.bench = session.bench)
    (hc : session'.cache = session.cache ∨ session.cache.link? t ≠ none ∧ session.cache.Leads t e ∧
      session'.cache = session.cache.setLink t e) : Tidy C rules own terms session' := by
  rcases hc with hc | ⟨hlinked, hl, hc⟩
  · exact h.worked (by rw [hbench]) hc
  have hscope : t.scope = own := (hs.canonical.scope_eq ht).trans h.scope
  refine ⟨hbench ▸ h.scope, ?_, ?_, ?_⟩
  · rw [hc]
    exact h.idle
  · rw [hc]
    exact h.accounts.setLink_end hs.orderly hlinked hl
  · rw [hc, hbench]
    exact h.faithful.setLink (C.of_owns ht) (hscope ▸ h.leads hs ht hl)

/-- The innermost term is linked to another, which may be an end of chains instead. -/
theorem setLink (h : Tidy C rules own (t :: outer) session) (hs : Standing C rules (t :: outer) session)
    (hl : session.cache.link? next = none) (hne : next.id ≠ t.id) (hsteps : Reaches rules own t.tree next.tree) :
    Tidy C rules own (next :: outer) { session with cache := session.cache.setLink t next } where
  scope := h.scope
  idle := h.idle
  accounts := by
    refine (h.accounts.setLink hs.orderly (hs.unfinished t List.mem_cons_self).1 hl hne).mono fun x hx => ?_
    rcases hx with ⟨hx, hid⟩ | rfl
    · rcases List.mem_cons.mp hx with rfl | hx
      · exact absurd rfl hid
      · exact List.mem_cons_of_mem _ hx
    · exact List.mem_cons_self
  faithful := by
    have ht := hs.owns t List.mem_cons_self
    have hscope : t.scope = own := (hs.canonical.scope_eq ht).trans h.scope
    exact h.faithful.setLink (C.of_owns ht) (hscope ▸ hsteps)

/-- A normal form among the terms need not be named. -/
theorem of_normal (h : Tidy C rules own (t :: outer) session) (hn : session.cache.isNormal t = true) :
    Tidy C rules own outer session where
  scope := h.scope
  idle := h.idle
  accounts x y z hl hz := by
    rcases h.accounts x y z hl hz with hzn | hz
    · exact Or.inl hzn
    · rcases List.mem_cons.mp hz with rfl | hz
      · exact Or.inl hn
      · exact Or.inr hz
  faithful := h.faithful

/-- The innermost term turns out to be a normal form. -/
theorem addNormal (h : Tidy C rules own (t :: outer) session) (ht : session.bench.store.Owns t)
    (hspares : Spares rules rules t.scope t.tree) :
    Tidy C rules own outer { session with cache := session.cache.addNormal t } where
  scope := h.scope
  idle := h.idle
  accounts := by
    refine (h.accounts.addNormal t).mono fun x hx => ?_
    exact (List.mem_cons.mp hx.1).resolve_left fun heq => hx.2 (congrArg Term.id heq)
  faithful := h.faithful.addNormal (C.of_owns ht) hspares

/-- Unfinished work is forgotten while nothing is under way. -/
theorem discardUnfinished (hs : Standing C rules [] session) (hscope : session.bench.store.scope = own)
    (hf : session.cache.Faithful C rules session.bench.store) :
    Tidy C rules own [] { session with cache := session.cache.discardUnfinished } where
  scope := hscope
  idle := session.cache.isEvaluating_discardUnfinished
  accounts := (Cache.accounts_discardUnfinished hs.orderly).mono fun _ h => h.elim
  faithful := hf.discardUnfinished

end Tidy

/-! ## Faults -/

/-- The trees of the nodes of the store that are linked. -/
def Session.linkedTrees (session : Session) : Set (Tree Slot) :=
  {tree | ∃ u, session.bench.store.Owns u ∧ u.tree = tree ∧ session.cache.link? u ≠ none}

theorem Progress.linkedTrees_subset (h : Progress rules session session') :
    session.linkedTrees ⊆ session'.linkedTrees := by
  rintro _ ⟨u, hu, rfl, hl⟩
  exact ⟨u, hu.mono h.work.1, rfl, h.cache.linked u hl⟩

/-- The tree of the innermost term is not linked. -/
theorem Standing.not_linked (h : Standing C rules (t :: outer) session) : t.tree ∉ session.linkedTrees := by
  rintro ⟨u, hu, htree, hl⟩
  rw [h.canonical.eq_of_tree_eq hu (h.owns t List.mem_cons_self) htree] at hl
  exact hl (h.unfinished t List.mem_cons_self).1

/-- Settling the term within so many steps, begun in the session, may fail in this way: the steps run out on a way on
which nothing is rewritten that is linked in the session, or there is a cycle and the term does not terminate. -/
inductive Fails (rules : List Rule) (own n : Nat) (session : Session) (t : Term) : Fault → Prop
  | spent (way : Explores rules own n session.linkedTrees t.tree) : Fails rules own n session t .outOfSteps
  | raised (cycle : Cycle) (endless : ¬ Terminates rules own t.tree) : Fails rules own n session t (.cycle cycle)

namespace Fails

variable {fault : Fault} {cycle : Cycle}

theorem endless (h : Fails rules own n session t (.cycle cycle)) : ¬ Terminates rules own t.tree := by
  cases h with
  | raised _ endless => exact endless

/-- The number of steps and descents from the term is not bounded by the number of steps. -/
theorem unbounded (h : Fails rules own n session t fault) : ¬ Bounded rules own n t.tree := by
  cases h with
  | spent way => exact way.not_bounded
  | raised _ endless => exact fun hb => endless hb.terminates

theorem of_cycle (hcycle : ∃ cycle, fault = .cycle cycle) (h : ¬ Terminates rules own t.tree) :
    Fails rules own n session t fault := by
  obtain ⟨cycle, rfl⟩ := hcycle
  exact .raised cycle h

/-- The failure may have come later. -/
theorem later (h : Fails rules own n session' t fault) (hsub : session.linkedTrees ⊆ session'.linkedTrees) :
    Fails rules own n session t fault := by
  cases h with
  | spent way => exact .spent (way.anti hsub)
  | raised cycle endless => exact .raised cycle endless

/-- The failure of a child is a failure of the term. -/
theorem up (h : Fails rules own n session u fault) (hu : u ∈ t.children) : Fails rules own (n + 1) session t fault := by
  cases h with
  | spent way => exact .spent (.down (Term.tree_mem_children hu) way)
  | raised cycle endless => exact .raised cycle fun hterm => endless (hterm.of_descends (.single (.of_child hu)))

/-- The failure of what the term has become is a failure of the term. -/
theorem back (h : Fails rules own n session' u fault) (hfresh : t.tree ∉ session.linkedTrees)
    (hsteps : TransGen (Reduces rules own) t.tree u.tree)
    (hsub : insert t.tree session.linkedTrees ⊆ session'.linkedTrees) : Fails rules own (n + 1) session t fault := by
  cases h with
  | spent way => exact .spent (.on hfresh hsteps (way.anti hsub))
  | raised cycle endless =>
    exact .raised cycle fun hterm => endless (hterm.of_descends (descends_of_reduces hsteps).to_reflTransGen)

/-- What is put outside of a cycle makes no difference. -/
theorem append (h : Fails rules own n session t (.cycle cycle)) (u : Term) :
    Fails rules own n session t (.cycle (cycle.append u)) :=
  .raised _ h.endless

end Fails

/-! ## Rewriting at the root -/

theorem Trying.same (h : Trying C rules outer t session) (hs : Standing C rules (t :: outer) session')
    (hp : Progress rules session session') (hc : session'.cache = session.cache) :
    Trying C rules outer t session' := by
  refine h.progress hs hp ?_
  have hacc := h.accounts.bench hp.work
  rwa [Session.Accounts, ← hc] at hacc

namespace Reduction

variable {reduce : Term → Reduction Term} {rewriter : Rewriter} {rule : Rule}

/-- What is left after an attempt to rewrite the term at its root: a reduct that one step makes, or none if the rules
were tried in vain. -/
structure Makes (rules tried : List Rule) (own : Nat) (t : Term) (r : Option Term) (session : Session) : Prop where
  step : ∀ u ∈ r, session.bench.store.Owns u ∧ Reduces rules own t.tree u.tree
  spares : r = none → Spares rules tried own t.tree

/-- An attempt to rewrite the term at its root may fail in this way. -/
structure Breaks (rules : List Rule) (own : Nat) (t : Term) (fault : Fault) : Prop where
  raised : ∃ cycle, fault = .cycle cycle
  endless : ¬ Terminates rules own t.tree

/-- **A rule without conditions makes one step**, and fails only if it has its own pattern in its template. -/
theorem rewriteRule_makes (hr : rule ∈ rules) (hplain : rule.Plain) (htry : Trying C rules outer t session)
    (hown : session.bench.store.scope = own) :
    (settling C rules (t :: outer)).Yields (rule.rewrite reduce t) session
      (fun r session' => Makes rules [rule] own t r session' ∧ session'.cache = session.cache)
      (fun fault session' => (Breaks rules own t fault ∧ ¬ rule.Calm) ∧ session'.cache = session.cache) := by
  have hwithin := htry.standing.within rule hr
  cases rule with
  | conditional _ _ _ => exact hplain.elim
  | contraction =>
    refine (work_settles htry.standing htry.accounts (.contract t)
      (Work.contract_reads htry.standing.canonical htry.owns)).mono ?_ fun _ _ _ _ hF => hF.1.elim
    rintro r session' - - ⟨⟨hu, htree⟩, hcache, -⟩
    rw [hown] at htree
    refine ⟨⟨fun u hur => ⟨hu u hur, .of_rule hr ?_⟩, fun hnone => .single hr ?_⟩, hcache⟩
    · rw [Rule.reduct?, ← htree, Option.mem_def.mp hur, Option.map_some]
    · rw [Rule.reduct?, ← htree, hnone, Option.map_none]
  | pattern sides =>
    have hscope : (Rule.pattern sides).scope? = some sides.pattern.scope := by rw [sides.scope_pattern]; rfl
    have hne : sides.pattern.scope ≠ session.bench.store.scope := fun hps =>
      htry.standing.apart _ hr (hps ▸ hscope)
    unfold Rule.rewrite rewriteIf
    refine .bind (tryMatch_settles htry sides.pattern t (applied_pattern htry hne hwithin.1)) ?_
    rintro ⟨success, b⟩ session₁ hs₁ hp₁ ⟨htry₁, hcache₁, -, hsuccess, happlied⟩
    dsimp only at hsuccess happlied ⊢
    cases hm : sides.pattern.tree.match? t.tree .empty with
    | none =>
      rw [hm, Option.isSome_none] at hsuccess
      rw [if_neg (by rw [hsuccess]; exact Bool.false_ne_true)]
      refine .pure hs₁ ⟨⟨by simp, fun _ => .single hr ?_⟩, hcache₁⟩
      rw [Rule.reduct?, PatternRule.reduct?, hm, Option.map_none]
    | some σ =>
      rw [hm, Option.isSome_some] at hsuccess
      rw [if_pos hsuccess]
      -- there are no conditions to check
      refine .bind (P := fun r session₂ => r = some b ∧ session₂ = session₁) (.pure hs₁ ⟨rfl, rfl⟩) ?_
      rintro r session₂ - - ⟨rfl, rfl⟩
      refine readCache ?_
      have hinsert : (settling C rules (t :: outer)).Yields _ _ _
          fun fault session' => Unsettled False False (t :: outer) fault session' ∧ _ :=
        insert_settles hr hscope htry₁ (C.mono hp₁.work.1 hwithin.1)
          (happlied σ hm) (C.mono hp₁.work.1 hwithin.2)
          (sides.scope_template.trans sides.scope_pattern.symm) False.elim
      refine .bind ((hinsert.after (R := fun session' => session'.cache = session₂.cache) rfl).mono_fault ?_) ?_
      · rintro fault session₃ - - ⟨⟨-, hocc, hcycle⟩, hcache₃⟩
        have happlies : (sides.pattern.tree.match? t.tree .empty).isSome = true := by rw [hm, Option.isSome_some]
        refine ⟨⟨⟨hcycle, PatternRule.not_terminates hr ?_ hocc happlies⟩, fun hcalm => ?_⟩, hcache₃.trans hcache₁⟩
        · rwa [← sides.scope_pattern, ← hown]
        · rw [Rule.Calm, hocc] at hcalm
          cases hcalm
      · rintro v session₃ hs₃ hp₃ ⟨⟨-, hv, -, htree, -⟩, hcache₃⟩
        refine .pure hs₃ ⟨⟨fun u hu => ?_, fun hnone => by cases hnone⟩, hcache₃.trans hcache₁⟩
        rw [Option.mem_some] at hu
        subst hu
        refine ⟨hv, .of_rule hr ?_⟩
        rw [htree, Store.scope_eq_of_le hp₁.work.1, hown, Rule.reduct?, PatternRule.reduct?, hm, Option.map_some]

/-- The first rule that gives a reduct makes one step. If all rules fail, the term does not terminate; if they are tried
in vain and one has been passed over, another does not apply. -/
theorem rewriteFirst_makes (hplain : ∀ rule ∈ rules, rule.Plain) :
    ∀ {rs : List Rule} {last : Option Cycle} {onlyCycles : Bool} {session : Session}, rs ⊆ rules →
      Trying C rules outer t session → session.bench.store.scope = own →
      (last.isSome = true → ¬ Terminates rules own t.tree) →
      (onlyCycles = false → ∃ rule ∈ rules, rule.reduct? own t.tree = none) →
      (settling C rules (t :: outer)).Yields (rewriteFirst reduce t rs last onlyCycles) session
        (fun r session' => (Makes rules rs own t r session' ∧
          (r = none → last.isSome = true → ∃ rule ∈ rules, rule.reduct? own t.tree = none)) ∧
          session'.cache = session.cache)
        (fun fault session' => Breaks rules own t fault ∧ session'.cache = session.cache) := by
  intro rs
  induction rs with
  | nil =>
    intro last onlyCycles session _ htry _ hlast hother
    unfold rewriteFirst
    split
    · exact .throw htry.standing ⟨⟨⟨_, rfl⟩, hlast rfl⟩, rfl⟩
    · next hno =>
      refine .pure htry.standing ⟨⟨⟨by simp, fun _ => .nil⟩, fun _ hsome => hother ?_⟩, rfl⟩
      obtain ⟨cycle, rfl⟩ := Option.isSome_iff_exists.mp hsome
      exact Bool.eq_false_of_not_eq_true fun honly => hno cycle rfl honly
    · next h => cases h
  | cons rule rs ih =>
    intro last onlyCycles session hsub htry hown hlast hother
    have hrule : rule ∈ rules := hsub List.mem_cons_self
    have hrest : rs ⊆ rules := fun r hrm => hsub (List.mem_cons_of_mem _ hrm)
    unfold rewriteFirst
    refine .bind ((orCycle_yields (rewriteRule_makes hrule (hplain rule hrule) htry hown)).mono_fault
      fun _ _ _ _ hF => ⟨hF.1.1.1, hF.1.2⟩) ?_
    rintro result session₁ hs₁ hp₁ hresult
    have hown₁ : session₁.bench.store.scope = own := (Store.scope_eq_of_le hp₁.work.1).trans hown
    match result, hresult with
    | .ok (some reduct), ⟨hmakes, hcache₁⟩ =>
      have htry₁ := htry.same hs₁ hp₁ hcache₁
      refine .bind ((record_settles hs₁ htry₁.accounts rfl).mono_fault fun _ _ _ _ hF => hF.elim) ?_
      rintro - session₂ hs₂ hp₂ ⟨hcache₂, -, hstore₂, -⟩
      exact .pure hs₂ ⟨⟨⟨fun u hum => hstore₂ ▸ hmakes.step u hum, by simp⟩, by simp⟩, hcache₂.trans hcache₁⟩
    | .ok none, ⟨hmakes, hcache₁⟩ =>
      -- this rule is the one that does not apply
      have hnone := hmakes.spares rfl
      have hfound := hnone.other (List.cons_ne_nil rule [])
      refine (ih hrest (htry.same hs₁ hp₁ hcache₁) hown₁ hlast fun _ => hfound).mono ?_
        fun _ _ _ _ hF => ⟨hF.1, hF.2.trans hcache₁⟩
      rintro r session₂ - - ⟨⟨hmakes₂, -⟩, hcache₂⟩
      exact ⟨⟨⟨hmakes₂.step, fun hr => .cons (hnone.calm rule List.mem_cons_self) (hmakes₂.spares hr) hfound⟩,
        fun _ _ => hfound⟩, hcache₂.trans hcache₁⟩
    | .error cycle, ⟨⟨hbreaks, hcalm⟩, hcache₁⟩ =>
      have htry₁ := htry.same hs₁ hp₁ hcache₁
      refine .bind ((record_raised_settles hs₁ (htry₁.accounts.mono (List.subset_append_right cycle.chain _))
        fun hall => hcalm (hall rule hrule)).mono_fault fun _ _ _ _ hF => hF.elim) ?_
      rintro - session₂ hs₂ hp₂ ⟨hcache₂, hacc₂, -, -⟩
      have hcache := hcache₂.trans hcache₁
      refine (ih hrest (htry₁.progress hs₂ hp₂ hacc₂) ((Store.scope_eq_of_le hp₂.work.1).trans hown₁)
        (fun _ => hbreaks.endless) hother).mono ?_ fun _ _ _ _ hF => ⟨hF.1, hF.2.trans hcache⟩
      rintro r session₃ - - ⟨⟨hmakes₃, hpassed⟩, hcache₃⟩
      exact ⟨⟨⟨hmakes₃.step, fun hr => .cons (fun h => absurd h hcalm) (hmakes₃.spares hr) (hpassed hr rfl)⟩,
        fun hr _ => hpassed hr rfl⟩, hcache₃.trans hcache⟩

/-- **Rewriting at the root makes one step**, and fails only if the term does not terminate. -/
theorem rewriter_makes (hplain : ∀ rule ∈ rewriter.rules, rule.Plain)
    (htry : Trying C rewriter.rules outer t session) (hown : session.bench.store.scope = own) :
    (settling C rewriter.rules (t :: outer)).Yields (rewriter.rewrite reduce t) session
      (fun r session' => Makes rewriter.rules rewriter.rules own t r session' ∧ session'.cache = session.cache)
      (fun fault session' => Breaks rewriter.rules own t fault ∧ session'.cache = session.cache) := by
  cases rewriter with
  | rule r =>
    have hr : r ∈ (Rewriter.rule r).rules := List.mem_singleton_self r
    exact (rewriteRule_makes hr (hplain r hr) htry hown).mono_fault fun _ _ _ _ hF => ⟨hF.1.1, hF.2⟩
  | system rs =>
    exact (rewriteFirst_makes hplain (List.Subset.refl _) htry hown (by simp) (by simp)).mono
      (fun _ _ _ _ hP => ⟨hP.1.1, hP.2⟩) fun _ _ _ _ hF => hF

/-- Where the children are normal forms, one step of settling is one step of rewriting. -/
theorem advanceAtRoot_makes (hplain : ∀ rule ∈ rewriter.rules, rule.Plain)
    (hs : Standing C rewriter.rules (t :: outer) session) (h : Tidy C rewriter.rules own (t :: outer) session)
    (honce : t ∉ outer) (hnormal : ∀ c ∈ t.children, session.cache.isNormal c = true) :
    (settling C rewriter.rules (t :: outer)).Yields (advanceAtRoot rewriter reduce t) session
      (fun r session' => Makes rewriter.rules rewriter.rules own t r session' ∧ session'.cache = session.cache)
      (fun fault session' => Breaks rewriter.rules own t fault ∧ session'.cache = session.cache) := by
  have hended : ∀ {inner : Session}, inner.cache = session.cache.beginEvaluating t →
      inner.cache.endEvaluating t = session.cache := fun hc =>
    hc ▸ Cache.endEvaluating_beginEvaluating (h.idle t)
  have hrewrite := evaluating_settles (x := rewriter.rewrite reduce t) hs (h.idle t) honce fun hbegin =>
    rewriter_makes hplain ⟨hbegin, fun u v e hl hlead => h.session_accounts u v e hl (hlead.congr fun _ => rfl),
      (session.cache.isEvaluating_beginEvaluating t t).mpr (Or.inl rfl), hnormal⟩ h.scope
  unfold advanceAtRoot
  refine .bind (hrewrite.mono_fault ?_) ?_
  · rintro fault session₁ - - ⟨inner, ⟨hbreaks, hc⟩, rfl⟩
    exact ⟨hbreaks, hended hc⟩
  rintro r session₁ hs₁ - ⟨inner, ⟨hmakes, hc⟩, rfl⟩
  cases r with
  | none => exact .pure hs₁ ⟨⟨by simp, hmakes.spares⟩, hended hc⟩
  | some reduct =>
    obtain ⟨howns, hstep⟩ := hmakes.step reduct rfl
    dsimp only
    split
    · next hid =>
      have hsame : reduct = t := howns.eq_of_id_eq (hs₁.owns t List.mem_cons_self) hid
      exact .throw hs₁ ⟨⟨⟨_, rfl⟩, not_terminates_of_loop (.single (Or.inl (hsame ▸ hstep)))⟩, hended hc⟩
    · exact .pure hs₁ ⟨⟨fun u hu => Option.some.inj hu ▸ ⟨howns, hstep⟩, fun hnone => by cases hnone⟩, hended hc⟩

/-! ## Settling -/

/-- The computation for the term, begun in the first session, has failed and left the second. Links and normal forms
remain what they should be. -/
structure Looped (C : Custody) (rules : List Rule) (own n : Nat) (start : Session) (t : Term) (fault : Fault)
    (session : Session) : Prop where
  faithful : session.cache.Faithful C rules session.bench.store
  fails : Fails rules own n start t fault

theorem Looped.later {start : Session} {fault : Fault} (h : Looped C rules own n session t fault session')
    (hp : Progress rules start session) : Looped C rules own n start t fault session' :=
  ⟨h.faithful, h.fails.later hp.linkedTrees_subset⟩

/-- The term has been reduced and leads to a normal form, and everything is in order. -/
structure Tidied (C : Custody) (rules : List Rule) (own : Nat) (frames : List Term) (t u : Term)
    (session : Session) : Prop where
  tidy : Tidy C rules own frames session
  normal : session.cache.isNormal u = true
  leads : session.cache.Leads t u

/-- A way to reduce the terms of a store that fails only over loops, which may be closed by the terms under way. -/
def Looper (C : Custody) (rules : List Rule) (own n : Nat) (reduce : Term → Reduction Term) : Prop :=
  ∀ {frames : List Term} {session : Session} {t : Term}, Standing C rules frames session →
    Tidy C rules own frames session → session.bench.store.Owns t → (∀ f ∈ frames.head?, t ∈ f.children) →
    (settling C rules frames).Yields (reduce t) session (Tidied C rules own frames t)
      (fun fault session' => session'.cache.Faithful C rules session'.bench.store ∧
        (Fails rules own n session t fault ∨
          (∃ cycle, fault = .cycle cycle) ∧ ∃ e ∈ frames, Reaches rules own t.tree e.tree))

/-- If reducing a child fails, it is over a loop from the term. -/
theorem reduceChildren_loops (hreduce : Looper C rules own n reduce) :
    ∀ {children : List Term} {session : Session}, children ⊆ t.children →
      Standing C rules (t :: outer) session → Tidy C rules own (t :: outer) session →
      (settling C rules (t :: outer)).Yields (reduceChildren reduce t children) session
        (fun _ session' => Tidy C rules own (t :: outer) session')
        (Looped C rules own (n + 1) session t) := by
  intro children
  induction children with
  | nil => exact fun _ hs h => .pure hs h
  | cons child children ih =>
    intro session hsub hs h
    have hmem : child ∈ t.children := hsub List.mem_cons_self
    have hdown : TransGen (Descends rules own) t.tree child.tree := .single (.of_child hmem)
    have hfails : ∀ {fault : Fault}, (Fails rules own n session child fault ∨
        (∃ cycle, fault = .cycle cycle) ∧ ∃ e ∈ t :: outer, Reaches rules own child.tree e.tree) →
        Fails rules own (n + 1) session t fault := by
      rintro fault (hfails | ⟨hcycle, e, he, hreach⟩)
      · exact hfails.up hmem
      · exact .of_cycle hcycle (h.not_terminates hs he (hdown.trans_left hreach.descends))
    unfold reduceChildren
    refine .bind (below_yields (hreduce hs h (hs.canonical.owns_child (hs.owns t List.mem_cons_self) hmem)
      fun f hf => ?_) (fun cycle session' hF => ⟨hF.1, (hfails hF.2).append t⟩)
      fun fault session' _ hF => ⟨hF.1, hfails hF.2⟩) ?_
    · rw [List.head?_cons, Option.mem_some] at hf
      exact hf ▸ hmem
    rintro u session₁ hs₁ hp₁ ⟨h₁, -, -⟩
    refine readCache ?_
    refine .bind ((ih (fun c hc => hsub (List.mem_cons_of_mem _ hc)) hs₁ h₁).mono_fault
      fun _ _ _ _ hF => hF.later hp₁) ?_
    exact fun others session₂ hs₂ _ h₂ => .pure hs₂ h₂

/-- What one step of settling leaves: another term that the term rewrites to, or none if the rules were tried on the
term in vain. -/
structure Advances (rules : List Rule) (own : Nat) (t : Term) (r : Option Term) : Prop where
  steps : ∀ next ∈ r, TransGen (Reduces rules own) t.tree next.tree
  spares : r = none → Spares rules rules own t.tree

/-- **One step of settling makes steps of rewriting**, and fails only over loops. -/
theorem advance_loops (hplain : ∀ rule ∈ rewriter.rules, rule.Plain)
    (hsettler : Settler C rewriter.rules (catchesCycles rewriter) False 0 reduce)
    (hreduce : Looper C rewriter.rules own n reduce) (hs : Standing C rewriter.rules (t :: outer) session)
    (h : Tidy C rewriter.rules own (t :: outer) session) :
    (settling C rewriter.rules (t :: outer)).Yields (advance rewriter reduce t) session
      (fun r session' => Tidy C rewriter.rules own (t :: outer) session' ∧ Advances rewriter.rules own t r)
      (Looped C rewriter.rules own (n + 1) session t) := by
  have hchildren := (reduceChildren_settles hsettler (List.Subset.refl _) hs h.session_accounts
    False.elim).and (reduceChildren_loops hreduce (List.Subset.refl _) hs h)
  rw [advance_eq]
  refine .bind (hchildren.mono_fault fun _ _ _ _ hF => hF.2) ?_
  rintro changed session₁ hs₁ hp₁ ⟨⟨-, hchildren, -⟩, h₁⟩
  have honce := hs₁.not_mem (h₁.idle t) hchildren.leads
  have ht := hs₁.owns t List.mem_cons_self
  cases changed with
  | true =>
    rw [if_pos rfl]
    refine readCache ?_
    refine .bind (((insert_rebuilds hs₁ h₁.session_accounts (h₁.idle t) hchildren).after
      (R := fun session' => session'.cache = session₁.cache) rfl).mono_fault fun _ _ _ _ hF => hF.1.elim) ?_
    rintro next session₂ hs₂ hp₂ ⟨⟨-, hnext, -, end_, hlead, htree⟩, hcache₂⟩
    refine .pure hs₂ ⟨h₁.worked hp₂.work.1 hcache₂, fun u hu => ?_, fun hnone => by cases hnone⟩
    rw [Option.mem_some] at hu
    subst hu
    have hreach : Reaches rewriter.rules own t.tree next.tree := by
      rw [htree, Term.tree_eq_ofShape t]
      exact .of_shape fun c hc => h₁.leads hs₁ (hs₁.canonical.owns_child ht hc) (hlead c hc)
    -- another node has another tree, so there is a step
    refine (reflTransGen_iff_eq_or_transGen.mp hreach).resolve_left fun heq => hnext.ne ?_
    rw [hs₂.canonical.eq_of_tree_eq hnext.owns (ht.mono hp₂.work.1) heq]
  | false =>
    rw [if_neg Bool.false_ne_true]
    refine (advanceAtRoot_makes hplain hs₁ h₁ honce hchildren.normal).mono ?_ ?_
    · rintro r session₂ - hp₂ ⟨hmakes, hcache₂⟩
      exact ⟨h₁.worked hp₂.work.1 hcache₂, fun u hu => .single (hmakes.step u hu).2, hmakes.spares⟩
    · rintro fault session₂ - hp₂ ⟨⟨⟨cycle, rfl⟩, hend⟩, hcache₂⟩
      exact ⟨(h₁.worked hp₂.work.1 hcache₂).faithful, .raised cycle hend⟩

/-- What settling within so many steps comes to for a term that is neither linked nor a normal form. -/
def SettlesTidily (C : Custody) (rewriter : Rewriter) (own n : Nat) : Prop :=
  ∀ {outer : List Term} {session : Session} {t : Term}, Standing C rewriter.rules (t :: outer) session →
    Tidy C rewriter.rules own (t :: outer) session →
    (settling C rewriter.rules outer).Yields (settle rewriter n t) session (Tidied C rewriter.rules own outer t)
      (Looped C rewriter.rules own n session t)

/-- To settle terms that are not linked is to reduce terms. -/
theorem looper_of_settles (ih : SettlesTidily C rewriter own n) :
    Looper C rewriter.rules own n (fun u => do settle rewriter n (← resolve u)) := by
  intro frames session t hs h ht hhead
  refine .bind (((resolve_settles hs h.session_accounts (C.of_owns ht)).faults resolve_raises).mono_fault ?_) ?_
  · rintro fault session' - - ⟨⟨rfl, e, he, hloose⟩, hcycle⟩
    exact ⟨h.faithful, Or.inr ⟨hcycle, e, h.unfinished he hloose, h.leads hs ht he⟩⟩
  rintro last session₁ hs₁ hp₁ ⟨hbench, -, hlead₁, hl₁, -, hlast, hc⟩
  have ht₁ : session₁.bench.store.Owns t := hbench ▸ ht
  have h₁ := h.shortened hs ht hbench hc
  cases hn : session₁.cache.isNormal last with
  | true =>
    refine (settle_of_normal hs₁ hn n).mono ?_ ?_
    · rintro u session₂ - - ⟨rfl, rfl⟩
      exact ⟨h₁, hn, hlead₁⟩
    · rintro fault session₂ - - ⟨rfl, rfl, rfl⟩
      exact ⟨h₁.faithful, Or.inl (.spent .stop)⟩
  | false =>
    -- there was no link to follow, so the term itself comes under way
    have hlt : last = t := hlast.resolve_right (by simp [hn])
    subst hlt
    refine (ih (hs₁.push ht₁ hl₁ hn fun f hf => Or.inr ⟨last, hhead f hf, .stay hl₁⟩)
      (h₁.mono (List.subset_cons_self _ _))).mono_fault fun _ _ _ _ hF =>
        ⟨hF.faithful, Or.inl (hF.later hp₁).fails⟩

/-- The term is linked to what it became, and the work goes on there. -/
theorem settle_replacement_loops (ih : SettlesTidily C rewriter own n)
    (hs : Standing C rewriter.rules (t :: outer) session) (h : Tidy C rewriter.rules own (t :: outer) session)
    (honce : t ∉ outer) (hnext : Replaces rewriter.rules t next session) (hl : session.cache.link? next = none)
    (hsteps : TransGen (Reduces rewriter.rules own) t.tree next.tree) :
    (settling C rewriter.rules outer).Yields
      (do learn (·.setLink t next); settle rewriter n next : Reduction Term) session
      (Tidied C rewriter.rules own outer t) (Looped C rewriter.rules own (n + 1) session t) := by
  have hfin := hs.unfinished t List.mem_cons_self
  obtain ⟨hs₁, hwaits⟩ := hs.setLink (h.idle t) honce hnext.owns hl hnext.ne hnext.derives hnext.leap
  have h₁ := h.setLink hs hl hnext.ne hsteps.to_reflTransGen
  have hlink := Cache.leads_setLink_self hnext.ne hl
  have hstep : Progress rewriter.rules session { session with cache := session.cache.setLink t next } :=
    ⟨working.refl _, .setLink hfin.1 hl hnext.ne, fun _ h => h⟩
  -- from now on the term counts as rewritten
  have hdone : insert t.tree session.linkedTrees ⊆
      Session.linkedTrees { session with cache := session.cache.setLink t next } := by
    refine Set.insert_subset ⟨t, hs.owns t List.mem_cons_self, rfl, ?_⟩ hstep.linkedTrees_subset
    rw [Cache.link?_setLink_self]
    exact Option.some_ne_none next
  refine .bind (learn_yields hs₁ hstep) ?_
  rintro - session₁ - - rfl
  cases hn : session.cache.isNormal next with
  | true =>
    refine (settle_of_normal (D := settling C rewriter.rules outer) hs₁ hn n).mono ?_ ?_
    · rintro u session₂ - - ⟨rfl, rfl⟩
      exact ⟨h₁.of_normal hn, hn, hlink⟩
    · rintro fault session₂ - - ⟨rfl, rfl, rfl⟩
      exact ⟨h₁.faithful, Fails.back (.spent .stop) hs.not_linked hsteps hdone⟩
  | false =>
    refine (ih (hs₁.push hnext.owns hlink.unlinked hn hwaits) h₁).mono ?_
      fun _ _ _ _ hF => ⟨hF.faithful, hF.fails.back hs.not_linked hsteps hdone⟩
    rintro u session₂ - hp₂ ⟨h₂, hnormal, hlead⟩
    obtain ⟨x, hx, htx⟩ := hp₂.cache.leads t next hlink
    rw [hx.unique hlead] at htx
    exact ⟨h₂, hnormal, htx⟩

/-- **Settling a term fails only over a loop**, or because the steps run out. -/
theorem settle_loops (hplain : ∀ rule ∈ rewriter.rules, rule.Plain) (n : Nat) :
    SettlesTidily C rewriter own n := by
  induction n with
  | zero =>
    intro outer session t hs h
    exact .throw (hs.tail (h.idle t)) ⟨h.faithful, .spent .stop⟩
  | succ n ih =>
    intro outer session t hs h
    unfold settle
    refine readCache ?_
    -- a term under way is no normal form
    rw [if_neg (by rw [(hs.unfinished t List.mem_cons_self).2]; exact Bool.false_ne_true)]
    have hsettler : Settler C rewriter.rules (catchesCycles rewriter) False 0
        (fun u => do settle rewriter n (← resolve u)) :=
      settler_of_settles (settle_settles rewriter n) False.elim
    have hadvance := (advance_settles hsettler hs h.session_accounts (h.idle t) False.elim).and
      (advance_loops hplain hsettler (looper_of_settles ih) hs h)
    refine .bind ((Standing.leave (h.idle t) hadvance).mono_fault fun _ _ _ _ hF => hF.1.2) ?_
    rintro r session₁ - hp₁ ⟨⟨hadv, h₁, hadvances⟩, hs₁⟩
    cases r with
    | none =>
      have ht₁ := hs₁.owns t List.mem_cons_self
      have hscope : t.scope = own := (hs₁.canonical.scope_eq ht₁).trans h₁.scope
      have hnormal := h₁.addNormal ht₁ (hscope ▸ hadvances.spares rfl)
      refine ((settle_irreducible hs₁ (h₁.idle t) hadv).after
        (R := fun session' => session'.cache = session₁.cache.addNormal t) rfl).mono ?_ fun _ _ _ _ hF => hF.1.elim
      rintro u session₂ - hp₂ ⟨hsettled, hcache₂⟩
      exact ⟨hnormal.worked hp₂.work.1 hcache₂, hsettled.normal, hsettled.leads⟩
    | some next =>
      have hnext := hadv.replaces next rfl
      have hsteps := hadvances.steps next rfl
      have hloop : ∀ {fault : Fault}, (∃ cycle, fault = .cycle cycle) → (∃ e, session₁.cache.Leads next e ∧
          (session₁.cache.isEvaluating next = true ∨
            session₁.cache.link? next ≠ none ∧ session₁.cache.isNormal e = false)) →
          Looped C rewriter.rules own (n + 1) session t fault session₁ := by
        rintro fault hcycle ⟨e, he, hloose⟩
        exact ⟨h₁.faithful, .of_cycle hcycle (h₁.not_terminates hs₁ (h₁.unfinished he hloose)
          ((descends_of_reduces hsteps).trans_left (h₁.leads hs₁ hnext.owns he).descends))⟩
      have hfollow := below_yields (t := t) (G := Looped C rewriter.rules own (n + 1) session t)
        ((resolve_settles hs₁ hadv.accounts (C.of_owns hnext.owns)).faults resolve_raises)
        (fun cycle session' hF => hF.1.1 ▸ hloop ⟨_, rfl⟩ hF.1.2)
        fun fault session' _ hF => hF.1.1 ▸ hloop hF.2 hF.1.2
      have hreplace : (settling C rewriter.rules (t :: outer)).Yields _ _ _ (Unsettled False False outer) :=
        resolve_replacement (k := 0) (n := 0) hs₁ hadv.accounts hnext False.elim
      refine .bind ((Standing.leave (h₁.idle t) (hreplace.and hfollow)).mono_fault fun _ _ _ _ hF => hF.1.2) ?_
      rintro last session₂ - hp₂ ⟨⟨⟨hbench, -, hlast, hl₂, -⟩, -, -, hlead₂, -, -, -, hc⟩, hs₂⟩
      have h₂ := h₁.shortened hs₁ hnext.owns hbench hc
      exact (settle_replacement_loops ih hs₂ h₂ hadv.once hlast hl₂
        (hsteps.trans_left (h₂.leads hs₂ (hbench ▸ hnext.owns) hlead₂))).mono_fault
        fun _ _ _ _ hF => hF.later (hp₁.trans hp₂)

/-- **Normalizing a term makes steps from its copy in the store, and fails only if that does not terminate**, or
because the steps run out. Whatever is left unfinished is forgotten. -/
theorem normalize_loops (hplain : ∀ rule ∈ rewriter.rules, rule.Plain) (n : Nat)
    (hs : Standing C rewriter.rules [] session) (h : Tidy C rewriter.rules own [] session)
    (ht : C.has session.bench.store t) :
    (calling C rewriter.rules).Yields (normalize rewriter n t) session
      (fun r session' => Tidy C rewriter.rules own [] session' ∧
        ∃ u : Term, Links.none.Copied own t u.tree ∧ Reaches rewriter.rules own u.tree r.tree)
      (fun fault session' => (∀ cycle, fault = .cycle cycle → Tidy C rewriter.rules own [] session') ∧
        ∃ u start, Links.none.Copied own t u.tree ∧ Fails rewriter.rules own n start u fault) := by
  unfold normalize
  refine .bind ((work_settles hs h.session_accounts (.adopt t) (Work.adopt_yields hs.canonical ht)).calling.mono_fault
    fun _ _ _ _ hF => hF.1.elim) ?_
  rintro u session₁ hs₁ hg₁ ⟨⟨hu, hsame, hforeign⟩, hcache₁, hacc₁, -⟩
  refine .bind ((record_settles hs₁ hacc₁ rfl).calling.mono_fault fun _ _ _ _ hF => hF.elim) ?_
  rintro - session₂ hs₂ hg₂ ⟨hcache₂, -, hstore₂, -⟩
  have h₂ := h.worked (hg₁.1.1.trans hg₂.1.1) (hcache₂.trans hcache₁)
  have hcopied : Links.none.Copied own t u.tree := by
    rw [← h.scope]
    cases hown : session.bench.store.contains t with
    | true =>
      rw [(hsame hown).1]
      exact Links.copied_of_owns hs.canonical (C.owns ht hown)
    | false => exact hforeign hown
  have hfails : ∀ {fault : Fault}, (Fails rewriter.rules own n session₂ u fault ∨
      (∃ cycle, fault = .cycle cycle) ∧ ∃ e ∈ ([] : List Term), Reaches rewriter.rules own u.tree e.tree) →
      ∃ u start, Links.none.Copied own t u.tree ∧ Fails rewriter.rules own n start u fault := by
    rintro fault (hfails | ⟨-, e, he, -⟩)
    · exact ⟨u, session₂, hcopied, hfails⟩
    · cases he
  have hreduce := looper_of_settles (settle_loops hplain n) hs₂ h₂ (hstore₂ ▸ hu) (by simp)
  refine .bind ((orCycle_yields hreduce).calling.mono_fault fun fault _ _ _ hF =>
    ⟨fun cycle he => absurd he (hF.2 cycle), hfails hF.1.2⟩) ?_
  rintro result session₃ hs₃ hg₃ hresult
  match result, hresult with
  | .ok r, ⟨h₃, _, hlead₃⟩ =>
    have hreaches := h₃.leads hs₃ (Store.Owns.mono (hstore₂ ▸ hu) hg₃.1.1) hlead₃
    refine .bind ((record_settles hs₃ h₃.session_accounts rfl).calling.mono_fault fun _ _ _ _ hF => hF.elim) ?_
    rintro - session₄ hs₄ hg₄ ⟨hcache₄, -, -, -⟩
    exact .pure hs₄ ⟨h₃.worked hg₄.1.1 hcache₄, u, hcopied, hreaches⟩
  | .error cycle, ⟨hfaithful₃, hfails₃⟩ =>
    refine (abandon_calls hs₃ u cycle).mono_fault ?_
    rintro fault _ - - ⟨rfl, session₄, hs₄, hg₄, hcache₄, rfl⟩
    have hfaithful₄ : session₄.cache.Faithful C rewriter.rules session₄.bench.store := by
      rw [hcache₄]
      exact hfaithful₃.transfer fun _ hx => C.mono hg₄.1.1 hx
    have hscope₄ := (Store.scope_eq_of_le (hg₃.1.1.trans hg₄.1.1)).trans h₂.scope
    exact ⟨fun _ _ => Tidy.discardUnfinished hs₄ hscope₄ hfaithful₄, hfails hfails₃⟩

end Reduction

end TermGraph
