import TermGraph.Normalizer.Normalize
import TermGraph.Proofs.Matching.Values
import TermGraph.Proofs.Normalizer.Session
import TermGraph.Proofs.Store.Planting
import TermGraph.Rule.Planting

/-!
# Rewriting keeps terms in custody

Whatever is rewritten and by whatever rules: if the term, the sides of the rules and the links of the
normalizer are in custody, then the results are nodes of the store that is worked on, the normalizer's links stay in
custody and within a scope, and the store stays canonical. This holds whichever way the computation ends, and it ends
in a fault for no other reason than a cycle or that the steps are used up.

## Main statements

* `Rule.apply_yields` — a rule applied outside of a normalization
* `Reduction.settle_guarded`, `Reduction.normalize_guarded` — **normalization keeps the store canonical**
-/

namespace TermGraph

variable {C : Custody} {α β : Type}

/-- The fault is a cycle, or the steps are used up. Terms and rules that keep every promise cause no other. -/
def Fault.Expected : Fault → Prop
  | .cycle _ | .outOfSteps => True
  | .breach _ | .indexRange => False

/-! ## Rules in custody -/

/-- Both sides of the rule are in custody. -/
def PatternRule.Within (rule : PatternRule) (C : Custody) (store : Store) : Prop :=
  C.has store rule.pattern ∧ C.has store rule.template

/-- Both sides of the condition are in custody. -/
def Condition.Within (condition : Condition) (C : Custody) (store : Store) : Prop :=
  C.has store condition.lhs ∧ C.has store condition.rhs

/-- All terms of the rule are in custody. -/
def Rule.Within (C : Custody) (store : Store) : Rule → Prop
  | .pattern rule => rule.Within C store
  | .conditional rule conditions _ =>
    rule.Within C store ∧ ∀ condition ∈ conditions, condition.Within C store
  | .contraction => True

theorem Rule.Within.mono {store store' : Store} (hle : store ≤ store') :
    ∀ {rule : Rule}, rule.Within C store → rule.Within C store'
  | .pattern _, h => ⟨C.mono hle h.1, C.mono hle h.2⟩
  | .conditional _ _ _, h =>
    ⟨⟨C.mono hle h.1.1, C.mono hle h.1.2⟩, fun c hc => ⟨C.mono hle (h.2 c hc).1, C.mono hle (h.2 c hc).2⟩⟩
  | .contraction, _ => trivial

theorem PatternRule.scope_pattern (rule : PatternRule) : rule.pattern.scope = rule.store.scope :=
  Store.contains_iff.mp (Bool.and_eq_true_iff.mp rule.owned).1

theorem PatternRule.scope_template (rule : PatternRule) : rule.template.scope = rule.store.scope :=
  Store.contains_iff.mp (Bool.and_eq_true_iff.mp rule.owned).2

/-- Both sides of the condition belong to the scope. -/
def Condition.Of (scope : Nat) (c : Condition) : Prop := c.lhs.scope = scope ∧ c.rhs.scope = scope

theorem Condition.of_owned {rule : PatternRule} {conditions : List Condition}
    (h : (conditions.all fun c => rule.store.contains c.lhs && rule.store.contains c.rhs) = true) :
    ∀ c ∈ conditions, c.Of rule.pattern.scope := by
  intro c hc
  have hboth := Bool.and_eq_true_iff.mp (List.all_eq_true.mp h c hc)
  rw [PatternRule.scope_pattern]
  exact ⟨Store.contains_iff.mp hboth.1, Store.contains_iff.mp hboth.2⟩

/-! ## Planted rules -/

theorem Rule.plantConditions_yields : ∀ (sides : List (Tree Index × Tree Index)) {bench : Bench},
    bench.store.Canonical →
    working.Yields (plantConditions sides) bench
      (fun conditions bench' => ∀ c ∈ conditions, c.Within .own bench'.store)
      fun _ _ => False
  | [], bench, h => by
    rw [plantConditions]
    exact .pure h (by simp)
  | (lhs, rhs) :: sides, bench, h => by
    rw [plantConditions]
    refine .bind (Work.plant_yields h lhs) ?_
    rintro l bench₁ h₁ - ⟨hl, -⟩
    refine .bind (Work.plant_yields h₁ rhs) ?_
    rintro r bench₂ h₂ hle₂ ⟨hr, -⟩
    refine .bind (plantConditions_yields sides h₂) ?_
    rintro conditions bench₃ h₃ hle₃ hc
    refine .pure h₃ fun c hcm => ?_
    rcases List.mem_cons.mp hcm with rfl | hcm
    · exact ⟨hl.mono (le_trans hle₂.1 hle₃.1), hr.mono hle₃.1⟩
    · exact hc c hcm

/-- Sides that the store owns make a rule. -/
theorem Rule.of_eq_ok {store : Store} (h : store.Canonical) {pattern template : Term}
    (hp : store.Owns pattern) (ht : store.Owns template) {conditions : Option (List Condition)}
    (hc : ∀ cs ∈ conditions, ∀ c ∈ cs, c.Within .own store) :
    ∃ rule, of store pattern template conditions = .ok rule ∧ rule.Within .own store := by
  have hsides : (store.contains pattern && store.contains template) = true := by
    rw [h.contains hp, h.contains ht, Bool.and_true]
  cases conditions with
  | none =>
    refine ⟨.pattern ⟨store, pattern, template, hsides⟩, ?_, hp, ht⟩
    simp [of, PatternRule.of, hsides, Bind.bind, Except.bind, Pure.pure, Except.pure]
  | some cs =>
    have hall : (cs.all fun c => store.contains c.lhs && store.contains c.rhs) = true := by
      rw [List.all_eq_true]
      intro c hcm
      rw [h.contains (hc cs rfl c hcm).1, h.contains (hc cs rfl c hcm).2, Bool.and_true]
    refine ⟨.conditional ⟨store, pattern, template, hsides⟩ cs hall, ?_, ⟨hp, ht⟩, hc cs rfl⟩
    simp [of, under, PatternRule.of, hsides, hall, Bind.bind, Except.bind]

/-- Planting a rule never fails, and the store owns all terms of the rule. -/
theorem Rule.plant_yields {bench : Bench} (h : bench.store.Canonical) (pattern template : Tree Index)
    (conditions : Option (List (Tree Index × Tree Index))) :
    working.Yields (plant pattern template conditions) bench
      (fun rule bench' => rule.Within .own bench'.store) fun _ _ => False := by
  unfold plant
  refine .bind (Work.plant_yields h pattern) ?_
  rintro p bench₁ h₁ - ⟨hp, -⟩
  refine .bind (Work.plant_yields h₁ template) ?_
  rintro t bench₂ h₂ hle₂ ⟨ht, -⟩
  cases conditions with
  | none =>
    have hnone : ∀ l ∈ (none : Option (List Condition)), ∀ c ∈ l, c.Within .own bench₂.store := by
      simp
    obtain ⟨rule, he, hrule⟩ := of_eq_ok h₂ (hp.mono hle₂.1) ht hnone
    simp only [pure_bind]
    refine .read ?_
    rw [he]
    exact .pure h₂ hrule
  | some sides =>
    refine .bind (plantConditions_yields sides h₂) ?_
    rintro cs bench₃ h₃ hle₃ hc
    have hsome : ∀ l ∈ some cs, ∀ c ∈ l, c.Within .own bench₃.store := by simpa using hc
    obtain ⟨rule, he, hrule⟩ := of_eq_ok h₃ (hp.mono (le_trans hle₂.1 hle₃.1)) (ht.mono hle₃.1) hsome
    simp only [pure_bind]
    refine .read ?_
    rw [he]
    exact .pure h₃ hrule

/-! ## At the bench -/

namespace Work

variable {bench : Bench} {t : Term} {b : Bindings}

theorem links_within {store : Store} (hb : b.Values (C.has store)) : b.links.Within C store :=
  fun t next hl => hb t.id next hl

theorem tryMatch_yields (h : bench.store.Canonical) (hb : b.Values (C.has bench.store))
    (pattern : Term) (ht : C.has bench.store t) :
    working.Yields (tryMatch b pattern t) bench
      (fun p bench' => p.2.Values (C.has bench'.store))
      fun _ _ => False := by
  unfold tryMatch
  have hvalues := b.tryMatch_values (fun u hu _ c hc => C.child h hu hc) hb pattern ht
  refine .bind (record_yields h _) ?_
  rintro - bench' h' - ⟨hs, -⟩
  exact .pure h' (by rw [hs]; exact hvalues)

theorem tryMatch_returns (h : bench.store.Canonical) (b : Bindings)
    (pattern subject : Term) :
    working.Yields (tryMatch b pattern subject) bench
      (fun r bench' => r = b.tryMatch pattern subject ∧ bench'.store = bench.store) fun _ _ => False := by
  unfold tryMatch
  refine .bind (record_yields h _) ?_
  rintro - bench' h' - ⟨hs, -⟩
  exact .pure h' ⟨rfl, hs⟩

/-- Contraction never fails. -/
theorem contract_yields (h : bench.store.Canonical) (ht : C.has bench.store t) :
    working.Yields (contract t) bench (fun r bench' => ∀ u ∈ r, bench'.store.Owns u)
      fun _ _ => False := by
  unfold contract
  refine .bind (adopt_yields h ht) ?_
  rintro u bench' h' - ⟨hu, -⟩
  split
  · next body argument =>
    have hfun := h'.owns_child hu List.mem_cons_self
    have hbody := h'.owns_child hfun List.mem_cons_self
    have harg := h'.owns_child hu (List.mem_cons_of_mem _ List.mem_cons_self)
    refine .bind (build_yields (Build.contract_yields (C := .own) h' hbody harg)) ?_
    rintro v bench'' h'' - ⟨(hv : bench''.store.Owns v), -⟩
    exact .pure h'' (by simpa using hv)
  · exact .pure h' (by simp)

end Work

theorem PatternRule.apply_yields {rule : PatternRule} {bench : Bench} {t : Term}
    (h : bench.store.Canonical) (hr : rule.Within C bench.store) (ht : C.has bench.store t) :
    working.Yields (rule.apply t) bench (fun r bench' => ∀ u ∈ r, bench'.store.Owns u)
      fun fault _ => ∃ cycle, fault = .cycle cycle := by
  unfold PatternRule.apply
  refine .bind (Work.tryMatch_yields h .empty rule.pattern ht).no_fault ?_
  rintro ⟨success, b⟩ bench' h' hle hb
  dsimp only
  split
  · refine .bind ((Work.insert_yields h' (Work.links_within hb) (C.mono hle.1 hr.2)).mono_fault
      fun _ _ _ _ hf => hf.1) ?_
    rintro v bench'' h'' - ⟨hv, -⟩
    exact .pure h'' (by simpa using hv)
  · exact .pure h' (by simp)

/-- A rule's reduct is a node of the store, and a rule fails only with a cycle. -/
theorem Rule.apply_yields {bench : Bench} {t : Term} (h : bench.store.Canonical)
    (ht : C.has bench.store t) : ∀ {rule : Rule}, rule.Within C bench.store →
    working.Yields (rule.apply t) bench (fun r bench' => ∀ u ∈ r, bench'.store.Owns u)
      fun fault _ => ∃ cycle, fault = .cycle cycle
  | .pattern _, hr => PatternRule.apply_yields h hr ht
  | .conditional _ _ _, hr => PatternRule.apply_yields h hr.1 ht
  | .contraction, _ => (Work.contract_yields h ht).no_fault

/-! ## In a session -/

/-- Under the discipline the store is canonical and only grows and what the normalizer's links lead to is in custody,
and any work at the bench is allowed. -/
structure Discipline.Hosts (D : Discipline Session) (C : Custody) : Prop where
  canonical : ∀ {session : Session}, D.sound session → session.bench.store.Canonical
  within : ∀ {session : Session}, D.sound session → session.cache.asLinks.Within C session.bench.store
  grows : ∀ {session session' : Session}, D.grows session session' → working.grows session.bench session'.bench
  bench : ∀ {session : Session} {bench : Bench}, D.sound session → bench.store.Canonical →
    working.grows session.bench bench → D.sound { session with bench } ∧ D.grows session { session with bench }

/-- Every link leads to a term of the scope that it leaves. -/
def Cache.KeepsScope (cache : Cache) : Prop := ∀ t next, cache.link? t = some next → next.scope = t.scope

/-- The store of a session is canonical, the normalizer's links lead to terms in custody and stay within a scope, and
the rules are in custody. -/
structure Reducing (C : Custody) (rules : List Rule) (session : Session) : Prop where
  canonical : session.bench.store.Canonical
  within : session.cache.asLinks.Within C session.bench.store
  keepsScope : session.cache.KeepsScope
  rules : ∀ rule ∈ rules, rule.Within C session.bench.store

theorem Cache.keepsScope_empty : Cache.empty.KeepsScope := by
  intro t next hl
  simp [Cache.link?, Cache.empty] at hl

namespace Reducing

variable {rules : List Rule} {session : Session} {t next : Term}

/-- What a node of the store is linked to is a node of the store. -/
theorem owns_linked (hs : Reducing C rules session) (ht : session.bench.store.Owns t)
    (hl : session.cache.link? t = some next) : session.bench.store.Owns next := by
  refine C.owns (hs.within t next hl) (Store.contains_iff.mpr ?_)
  rw [hs.keepsScope t next hl, hs.canonical.scope_eq ht]

/-- Links may be given up, and what else the normalizer knows is of no interest. -/
theorem learn {cache : Cache} (hs : Reducing C rules session)
    (hl : ∀ t next, cache.link? t = some next → session.cache.link? t = some next) :
    Reducing C rules { session with cache } where
  canonical := hs.canonical
  within u v hv := hs.within u v (hl u v hv)
  keepsScope u v hv := hs.keepsScope u v (hl u v hv)
  rules := hs.rules

/-- A node of the store may be linked to another. -/
theorem setLink (hs : Reducing C rules session) (ht : session.bench.store.Owns t)
    (hn : session.bench.store.Owns next) :
    Reducing C rules { session with cache := session.cache.setLink t next } where
  canonical := hs.canonical
  within u v hv := by
    rw [Cache.asLinks, Links.link?_table, Cache.setLink, NodeMap.getElem?_insert] at hv
    split at hv
    · cases hv
      exact C.of_owns hn
    · exact hs.within u v hv
  keepsScope u v hv := by
    rw [Cache.link?_setLink] at hv
    split at hv
    · next hid =>
      cases hv
      rw [hs.canonical.scope_eq hn, ← hs.canonical.scope_eq ht, Term.scope_congr hid]
    · exact hs.keepsScope u v hv
  rules := hs.rules

end Reducing

/-- The discipline of sessions in which terms are reduced by the rules. -/
def reducing (C : Custody) (rules : List Rule) : Discipline Session where
  sound := Reducing C rules
  grows session session' := working.grows session.bench session'.bench
  refl _ := working.refl _
  trans := working.trans

theorem reducing_hosts (C : Custody) (rules : List Rule) : (reducing C rules).Hosts C where
  canonical hs := hs.canonical
  within hs := hs.within
  grows hg := hg
  bench hs hb hg := ⟨⟨hb, hs.within.mono hg.1, hs.keepsScope, fun r hr => (hs.rules r hr).mono hg.1⟩, hg⟩

namespace Reduction

variable {D : Discipline Session} {rules : List Rule} {session : Session} {t : Term}

theorem hosted_work (hD : D.Hosts C) {w : Work α} {P : α → Bench → Prop} {F : Fault → Bench → Prop}
    (hs : D.sound session) (h : working.Yields w session.bench P F) :
    D.Yields (Reduction.work w) session
      (fun a session' => P a session'.bench ∧ session'.cache = session.cache) fun fault session' => F fault session'.bench :=
  (work_yields h fun _ _ hb hg => hD.bench hs hb hg).mono_fault fun _ _ _ _ hf => hf.1

theorem hosted_record (hD : D.Hosts C) (hs : D.sound session) (event : Event) {F : Fault → Session → Prop} :
    D.Yields (record event) session (fun _ _ => True) F :=
  (hosted_work hD hs (Work.record_yields (hD.canonical hs) event)).mono (fun _ _ _ _ _ => trivial)
    fun _ _ _ _ hf => hf.elim

/-- A term of which all is in custody has a copy, or the links run into a cycle. -/
theorem hosted_insert {links : Links} (hD : D.Hosts C) (hs : D.sound session)
    (hw : links.Within C session.bench.store) (ht : C.has session.bench.store t) :
    D.Yields (work (Work.insert links t)) session (fun u session' => session'.bench.store.Owns u)
      fun fault _ => fault.Expected := by
  refine (hosted_work hD hs (Work.insert_yields (hD.canonical hs) hw ht)).mono (fun _ _ _ _ hp => hp.1.1) ?_
  rintro fault session' - - ⟨⟨cycle, rfl⟩, -⟩
  trivial

/-- What a computation in custody yields: results with the property, and no fault that is not expected. -/
abbrev Guarded (C : Custody) (rules : List Rule) (x : Reduction α) (session : Session) (P : α → Store → Prop) : Prop :=
  (reducing C rules).Yields x session (fun a session' => P a session'.bench.store) fun fault _ => fault.Expected

theorem followIdle_owns (hs : Reducing C rules session) : ∀ (n : Nat) {t : Term},
    session.bench.store.Owns t → session.bench.store.Owns (session.cache.followIdle n t) := by
  intro n
  induction n with
  | zero => exact fun ht => ht
  | succ n ih =>
    intro t ht
    unfold Cache.followIdle
    split
    · next next hl =>
      split
      · exact ht
      · exact ih (hs.owns_linked ht hl)
    · exact ht

/-- What a node of the store has become is a node of the store. -/
theorem Guarded.resolve (hs : (reducing C rules).sound session) (ht : session.bench.store.Owns t) :
    Guarded C rules (resolve t) session fun u store => store.Owns u := by
  refine resolve_yields hs (fun _ => trivial) (fun _ => ht) ?_
  rintro next _ _ hl rfl rfl
  have hlast := followIdle_owns hs session.cache.links.size (hs.owns_linked ht hl)
  exact ⟨hs.setLink ht hlast, working.refl _, hlast⟩

theorem Guarded.evaluating {x : Reduction α} {P : α → Store → Prop}
    (h : Guarded C rules x { session with cache := session.cache.beginEvaluating t } P) :
    Guarded C rules (evaluating t x) session P := by
  refine (evaluating_yields h fun inner hs hg => ⟨Reducing.learn hs fun _ _ hl => hl, hg⟩).mono ?_ ?_
  · rintro a _ - - ⟨inner, ha, rfl⟩
    exact ha
  · rintro fault _ - - ⟨inner, hf, rfl⟩
    exact hf

/-- A way to reduce nodes of the store that keeps to the discipline and ends in nodes of the store. -/
def Hosted (D : Discipline Session) (reduce : Term → Reduction Term) : Prop :=
  ∀ {session : Session} {t : Term}, D.sound session → session.bench.store.Owns t →
    D.Yields (reduce t) session (fun u session' => session'.bench.store.Owns u) fun fault _ => fault.Expected

variable {reduce : Term → Reduction Term}

theorem both_within {b : Bindings} (hD : D.Hosts C) (hs : D.sound session)
    (hb : b.Values (C.has session.bench.store)) :
    (Links.both b.links session.cache.asLinks).Within C session.bench.store :=
  (Work.links_within hb).both (hD.within hs)

theorem checkConditions_guarded (hD : D.Hosts C) (hreduce : Hosted D reduce) (t : Term) :
    ∀ (conditions : List Condition) {b : Bindings} {session : Session},
      D.sound session → b.Values (C.has session.bench.store) →
      (∀ condition ∈ conditions, condition.Within C session.bench.store) →
      D.Yields (checkConditions reduce t conditions b) session
        (fun r session' => ∀ b' ∈ r, b'.Values (C.has session'.bench.store)) fun fault _ => fault.Expected
  | [], b, session, hs, hb, _ => .pure hs (by simpa using hb)
  | condition :: conditions, b, session, hs, hb, hc => by
    unfold checkConditions
    refine readCache ?_
    refine .bind (hosted_insert hD hs (both_within hD hs hb) (hc condition List.mem_cons_self).1) ?_
    rintro lhs session₁ hs₁ hg₁ hlhs
    refine .bind (hreduce hs₁ hlhs) ?_
    rintro normalForm session₂ hs₂ hg₂ hnormal
    have hle := working.trans (hD.grows hg₁) (hD.grows hg₂)
    refine .bind (hosted_work hD hs₂ (Work.tryMatch_yields (hD.canonical hs₂)
      (fun id v hv => C.mono hle.1 (hb id v hv)) condition.rhs (C.of_owns hnormal))).no_fault ?_
    rintro ⟨success, b'⟩ session₃ hs₃ hg₃ ⟨hb', -⟩
    have hle₃ := working.trans hle (hD.grows hg₃)
    dsimp only
    split
    · refine checkConditions_guarded hD hreduce t conditions hs₃ hb' fun c hcm => ?_
      have hcw := hc c (List.mem_cons_of_mem _ hcm)
      exact ⟨C.mono hle₃.1 hcw.1, C.mono hle₃.1 hcw.2⟩
    · refine .bind (hosted_record hD hs₃ _) ?_
      rintro - session₄ hs₄ - -
      exact .pure hs₄ (by simp)

theorem rewriteIf_guarded (hD : D.Hosts C) (hreduce : Hosted D reduce) {rule : PatternRule}
    {conditions : List Condition} (hs : D.sound session) (hr : rule.Within C session.bench.store)
    (hc : ∀ condition ∈ conditions, condition.Within C session.bench.store)
    (ht : C.has session.bench.store t) :
    D.Yields (rewriteIf reduce rule conditions t) session
      (fun r session' => ∀ u ∈ r, session'.bench.store.Owns u) fun fault _ => fault.Expected := by
  unfold rewriteIf
  refine .bind (hosted_work hD hs (Work.tryMatch_yields (hD.canonical hs) .empty rule.pattern ht)).no_fault ?_
  rintro ⟨success, b⟩ session₁ hs₁ hg₁ ⟨hb, -⟩
  have hle₁ := hD.grows hg₁
  dsimp only
  split
  · refine .bind (checkConditions_guarded hD hreduce t conditions hs₁ hb fun c hcm =>
      ⟨C.mono hle₁.1 (hc c hcm).1, C.mono hle₁.1 (hc c hcm).2⟩) ?_
    rintro r session₂ hs₂ hg₂ hb'
    have hle₂ := working.trans hle₁ (hD.grows hg₂)
    split
    · next b' =>
      refine readCache ?_
      refine .bind (hosted_insert hD hs₂ (both_within hD hs₂ (hb' b' rfl)) (C.mono hle₂.1 hr.2)) ?_
      rintro v session₃ hs₃ - hv
      exact .pure hs₃ (by simpa using hv)
    · exact .pure hs₂ (by simp)
  · exact .pure hs₁ (by simp)

/-- A rule's reduct is a node of the store. -/
theorem rewriteRule_guarded (hD : D.Hosts C) (hreduce : Hosted D reduce)
    (hs : D.sound session) (ht : C.has session.bench.store t) :
    ∀ {rule : Rule}, rule.Within C session.bench.store →
      D.Yields (rule.rewrite reduce t) session
        (fun r session' => ∀ u ∈ r, session'.bench.store.Owns u) fun fault _ => fault.Expected
  | .pattern _, hr => rewriteIf_guarded hD hreduce hs hr (by simp) ht
  | .conditional _ _ _, hr => rewriteIf_guarded hD hreduce hs hr.1 hr.2 ht
  | .contraction, _ =>
    (hosted_work hD hs (Work.contract_yields (hD.canonical hs) ht)).mono (fun _ _ _ _ hp => hp.1)
      fun _ _ _ _ hf => hf.elim

theorem rewriteFirst_guarded (hD : D.Hosts C) (hreduce : Hosted D reduce) : ∀ {rs : List Rule}
    {last : Option Cycle} {onlyCycles : Bool} {session : Session}, D.sound session →
    C.has session.bench.store t → (∀ r ∈ rs, r.Within C session.bench.store) →
    D.Yields (rewriteFirst reduce t rs last onlyCycles) session
      (fun r session' => ∀ u ∈ r, session'.bench.store.Owns u) fun fault _ => fault.Expected := by
  intro rs
  induction rs with
  | nil =>
    intro last onlyCycles session hs _ _
    unfold rewriteFirst
    split
    · exact .throw hs trivial
    · exact .pure hs (by simp)
    · next h => cases h
  | cons rule rs ih =>
    intro last onlyCycles session hs ht hr
    unfold rewriteFirst
    refine .bind ((orCycle_yields (rewriteRule_guarded hD hreduce hs ht (hr rule List.mem_cons_self))).mono_fault
      fun _ _ _ _ hf => hf.1) ?_
    rintro result session₁ hs₁ hg₁ hresult
    have hle₁ := hD.grows hg₁
    have hr₁ : ∀ r ∈ rs, r.Within C session₁.bench.store := fun r hrm =>
      (hr r (List.mem_cons_of_mem _ hrm)).mono hle₁.1
    split
    · next reduct =>
      refine .bind (hosted_record hD hs₁ _) ?_
      rintro - session₂ hs₂ hg₂ -
      refine .pure hs₂ fun w hw => ?_
      rw [Option.mem_some] at hw
      exact hw ▸ (hresult reduct rfl).mono (hD.grows hg₂).1
    · exact ih hs₁ (C.mono hle₁.1 ht) hr₁
    · refine .bind (hosted_record hD hs₁ _) ?_
      rintro - session₂ hs₂ hg₂ -
      have hle₂ := hD.grows hg₂
      exact ih hs₂ (C.mono (le_trans hle₁.1 hle₂.1) ht) fun r hrm => (hr₁ r hrm).mono hle₂.1

/-- The reduct by a rule or by a system is a node of the store. -/
theorem rewriter_guarded (hD : D.Hosts C) (hreduce : Hosted D reduce) (hs : D.sound session)
    (ht : C.has session.bench.store t) : ∀ {rewriter : Rewriter},
    (∀ rule ∈ rewriter.rules, rule.Within C session.bench.store) →
    D.Yields (rewriter.rewrite reduce t) session
      (fun r session' => ∀ u ∈ r, session'.bench.store.Owns u) fun fault _ => fault.Expected
  | .rule rule, hr => rewriteRule_guarded hD hreduce hs ht (hr rule List.mem_cons_self)
  | .system _, hr => rewriteFirst_guarded hD hreduce hs ht hr

/-! ## Normalization -/

theorem reduceChildren_guarded (hreduce : Hosted (reducing C rules) reduce) (parent : Term) :
    ∀ (children : List Term) {session : Session}, (reducing C rules).sound session →
      (∀ c ∈ children, session.bench.store.Owns c) →
      Guarded C rules (reduceChildren reduce parent children) session fun _ _ => True
  | [], session, hs, _ => .pure hs trivial
  | child :: children, session, hs, hc => by
    unfold reduceChildren
    refine .bind (below_yields (hreduce hs (hc child List.mem_cons_self)) (fun _ _ hf => hf)
      fun _ _ _ hf => hf) ?_
    rintro - session₁ hs₁ hle₁ -
    refine readCache ?_
    refine .bind (reduceChildren_guarded hreduce parent children hs₁
      fun c hcm => (hc c (List.mem_cons_of_mem _ hcm)).mono hle₁.1) ?_
    rintro others session₂ hs₂ - -
    exact .pure hs₂ trivial

variable {rewriter : Rewriter}

theorem advance_guarded (hr : rewriter.rules ⊆ rules) (hreduce : Hosted (reducing C rules) reduce)
    (hs : (reducing C rules).sound session) (ht : session.bench.store.Owns t) :
    Guarded C rules (advance rewriter reduce t) session fun r store => ∀ u ∈ r, store.Owns u := by
  unfold advance
  refine .bind (reduceChildren_guarded hreduce t t.children hs fun c hc => hs.canonical.owns_child ht hc) ?_
  rintro changed session₁ hs₁ hle₁ -
  have ht₁ := ht.mono hle₁.1
  split
  · refine readCache ?_
    refine .bind (hosted_insert (reducing_hosts C rules) hs₁ hs₁.within (C.of_owns ht₁)) ?_
    rintro u session₂ hs₂ - hu
    exact .pure hs₂ (by simpa using hu)
  · have hbegin : (reducing C rules).sound
        { session₁ with cache := session₁.cache.beginEvaluating t } := hs₁.learn fun _ _ hl => hl
    refine .bind (Guarded.evaluating (P := fun r store => ∀ u ∈ r, store.Owns u)
      (rewriter_guarded (reducing_hosts C rules) hreduce hbegin (C.of_owns ht₁)
        fun rule hrule => hs₁.rules rule (hr hrule))) ?_
    rintro result session₂ hs₂ - hresult
    split
    · exact .pure hs₂ (by simp)
    · split
      · exact .throw hs₂ trivial
      · exact .pure hs₂ hresult

/-- Settling a node of the store ends in a node of the store. -/
theorem settle_guarded (hr : rewriter.rules ⊆ rules) : ∀ (n : Nat) {t : Term} {session : Session},
    (reducing C rules).sound session → session.bench.store.Owns t →
    Guarded C rules (settle rewriter n t) session fun u store => store.Owns u := by
  intro n
  induction n with
  | zero => exact fun hs _ => .throw hs trivial
  | succ n ih =>
    intro t session hs ht
    have hreduce : Hosted (reducing C rules) (fun u => do settle rewriter n (← resolve u)) := by
      intro session u hs hu
      exact .bind (Guarded.resolve hs hu) fun v session' hs' _ hv => ih hs' hv
    unfold settle
    refine readCache ?_
    split
    · exact .pure hs ht
    · refine .bind (advance_guarded hr hreduce hs ht) ?_
      rintro result session₁ hs₁ hle₁ hresult
      have ht₁ := ht.mono hle₁.1
      split
      · refine .bind (hosted_record (reducing_hosts C rules) hs₁ _) fun _ session₂ hs₂ hle₂ _ => ?_
        refine .bind (learn_yields (hs₂.learn fun _ _ hl => hl) (working.refl _)) fun _ session₃ hs₃ hle₃ _ => ?_
        exact .pure hs₃ (ht₁.mono (le_trans hle₂.1 hle₃.1))
      · next next =>
        refine .bind (below_yields (Guarded.resolve hs₁ (hresult next rfl)) (fun _ _ hf => hf)
          fun _ _ _ hf => hf) ?_
        rintro last session₂ hs₂ hle₂ hlast
        refine .bind (learn_yields (hs₂.setLink (ht₁.mono hle₂.1) hlast) (working.refl _)) ?_
        rintro - session₃ hs₃ hle₃ -
        exact ih hs₃ (hlast.mono hle₃.1)

theorem reduce_hosted (hr : rewriter.rules ⊆ rules) (n : Nat) :
    Hosted (reducing C rules) (Reduction.reduce rewriter n) := by
  intro session t hs ht
  exact .bind (Guarded.resolve hs ht) fun u session' hs' _ hu => settle_guarded hr n hs' hu

/-- **Normalization keeps the store canonical and ends in a node of the store. It fails only with a cycle or when the
steps are used up.** -/
theorem normalize_guarded (hr : rewriter.rules ⊆ rules) (n : Nat)
    (hs : (reducing C rules).sound session)
    (ht : C.has session.bench.store t) :
    Guarded C rules (normalize rewriter n t) session fun u store => store.Owns u := by
  have hD := reducing_hosts C rules
  unfold normalize
  refine .bind (hosted_work hD hs (Work.adopt_yields hs.canonical ht)).no_fault ?_
  rintro u session₁ hs₁ - ⟨⟨hu, -⟩, -⟩
  refine .bind (hosted_record hD hs₁ _) fun _ session₂ hs₂ hle₂ _ => ?_
  refine .bind ((orCycle_yields (reduce_hosted hr n hs₂ (hu.mono hle₂.1))).mono_fault
    fun _ _ _ _ hf => hf.1) ?_
  rintro result session₃ hs₃ - hresult
  split
  · refine .bind (hosted_record hD hs₃ _) fun _ session₄ hs₄ hle₄ _ => ?_
    exact .pure hs₄ (Store.Owns.mono hresult hle₄.1)
  · refine .bind (hosted_record hD hs₃ _) fun _ session₄ hs₄ _ _ => ?_
    refine .bind (learn_yields (hs₄.learn fun u v hv => session₄.cache.link?_of_discardUnfinished hv)
      (working.refl _)) fun _ session₅ hs₅ _ _ => ?_
    exact .throw hs₅ trivial

end Reduction

end TermGraph
