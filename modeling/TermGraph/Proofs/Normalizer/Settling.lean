import TermGraph.Proofs.Normalizer.Advancing

/-!
# What settling a term does

Settling keeps a session in order, ends in a normal form, and leaves nothing unfinished behind but what a cycle
names.

It succeeds if the term's tree has a value and there are enough steps: two for each that the evaluation of the tree
is nested. A term is under way only while its children, its conditions and what it became are settled, and their
values are found within smaller bounds than its own. So no chain of links leads back to a term under way.

## Main statements

* `Reduction.settle_irreducible`, `Reduction.settle_replacement` — the two ways in which a step ends
* `Reduction.settle_settles` — **settling keeps the session in order and accounts for every chain of links, and
  succeeds for a term that has a value**
* `Reduction.normalize_settles` — the same of a whole normalization
-/

namespace TermGraph

variable {C : Custody} {rules : List Rule} {frames outer : List Term} {session session' : Session}
  {t u e next : Term} {catches sure : Prop} {bound k n : Nat} {v : Tree Slot}

/-! ## What may replace a term -/

theorem Replaces.scope_eq (h : Replaces rules t next session) (hs : Standing C rules (t :: outer) session) :
    next.scope = t.scope :=
  (hs.canonical.scope_eq h.owns).trans (hs.canonical.scope_eq (hs.owns t List.mem_cons_self)).symm

/-- What a replacement leads to may replace the term as well. -/
theorem Replaces.of_leads (h : Replaces rules t next session) (hs : Standing C rules (t :: outer) session)
    (hl : session.cache.Leads next e) (he : e = next ∨ session.cache.isNormal e = true) :
    Replaces rules t e session := by
  rcases he with rfl | hn
  · exact h
  have hscope := h.scope_eq hs
  have howns := hs.owns_of_leads h.owns hl
  refine ⟨howns, fun hid => ?_, h.derives.trans (hscope ▸ hs.derives (C.of_owns h.owns) hl), fun hq => ?_,
    fun hq => Or.inr ?_⟩
  · rw [Cache.isNormal_congr _ hid, (hs.unfinished t List.mem_cons_self).2] at hn
    cases hn
  · rcases (hs.reads hq).leads hs.canonical hs.orderly (C.of_owns h.owns) hl with rfl | hleap
    · exact h.leap hq
    · exact (h.leap hq).trans (hscope ▸ hleap)
  · have hripe := hs.ripe howns hq fun c hc =>
      hs.orderly.child hs.canonical (C.of_owns howns) hn c hc
    rwa [hs.canonical.scope_eq howns, ← hs.canonical.scope_eq (hs.owns t List.mem_cons_self)] at hripe

/-! ## When success is sure -/

theorem Clear.mono (h : Clear rules bound frames session) (hle : k ≤ bound) :
    Clear rules k frames session where
  quiet := h.quiet
  valueless f hf := by
    cases hk : evaluate rules f.scope k f.tree with
    | none => rfl
    | some v =>
      have hbound := evaluate_mono hle hk
      rw [h.valueless f hf] at hbound
      cases hbound

/-- A term that has a value does not lead to a term under way. -/
theorem Clear.not_leads (h : Clear rules bound frames session) (hs : Standing C rules frames session)
    (ht : session.bench.store.Owns t) (hv : evaluate rules t.scope bound t.tree = some v) :
    ∀ f ∈ frames, ¬ session.cache.Leads t f := by
  intro f hf hlead
  have hnone := h.valueless f hf
  have hscope : f.scope = t.scope := (hs.orderly.leads_has (C.of_owns ht) hlead).2
  rw [hscope] at hnone
  rcases (hs.reads h.quiet).leads hs.canonical hs.orderly (C.of_owns ht) hlead with rfl | hleap
  · rw [hv] at hnone
    cases hnone
  · rw [hleap.forth hv] at hnone
    cases hnone

/-- Settling the term is sure to succeed within so many steps: its tree has a value within half as many, or one
more if it is ready to be rewritten. -/
def Promised (rules : List Rule) (n : Nat) (outer : List Term) (t : Term) (session : Session) : Prop :=
  ∃ bound v, Clear rules bound outer session ∧ evaluate rules t.scope bound t.tree = some v ∧
    (2 * bound ≤ n ∨ Ripe rules t.scope t.tree ∧ 2 * bound ≤ n + 1)

theorem Promised.quiet (h : Promised rules n outer t session) : session.bench.journal.Quiet := by
  obtain ⟨bound, v, hclear, -⟩ := h
  exact hclear.quiet

theorem Promised.later (h : Promised rules n outer t session) (hq : session'.bench.journal.Quiet) :
    Promised rules n outer t session' := by
  obtain ⟨bound, v, hclear, hv⟩ := h
  exact ⟨bound, v, hclear.later hq, hv⟩

theorem Promised.pos (h : Promised rules n outer t session) : 0 < n := by
  obtain ⟨bound, v, -, hv, hle⟩ := h
  cases bound with
  | zero => cases hv
  | succ bound => omega

/-- The same with the least bound, which is `k + 1`, when one step of `n + 1` has been spent. -/
structure Due (rules : List Rule) (k n : Nat) (outer : List Term) (t : Term) (session : Session) : Prop where
  clear : Clear rules (k + 1) outer session
  value : ∃ v, evaluate rules t.scope (k + 1) t.tree = some v
  least : evaluate rules t.scope k t.tree = none
  steps : 2 * k + 1 ≤ n ∨ Ripe rules t.scope t.tree ∧ 2 * k ≤ n

theorem Promised.exists_due (h : Promised rules (n + 1) outer t session) :
    ∃ k, Due rules k n outer t session := by
  obtain ⟨bound, v, hclear, hv, hle⟩ := h
  obtain ⟨k, hk, hsome, hnone⟩ := evaluate_least hv
  refine ⟨k, hclear.mono hk, ⟨v, hsome⟩, hnone, ?_⟩
  rcases hle with hle | ⟨hr, hle⟩
  · exact Or.inl (by omega)
  · exact Or.inr ⟨hr, by omega⟩

namespace Due

theorem later (h : Due rules k n outer t session) (hq : session'.bench.journal.Quiet) :
    Due rules k n outer t session' := ⟨h.clear.later hq, h.value, h.least, h.steps⟩

theorem le (h : Due rules k n outer t session) : 2 * k ≤ n := by
  rcases h.steps with hle | ⟨-, hle⟩ <;> omega

/-- The children and conditions are settled while the term is under way itself. -/
theorem inner (h : Due rules k n outer t session) : Clear rules k (t :: outer) session where
  quiet := h.clear.quiet
  valueless f hf := by
    rcases List.mem_cons.mp hf with rfl | hf
    · exact h.least
    · exact (h.clear.mono (Nat.le_succ k)).valueless f hf

/-- What the term became is settled in its place. -/
theorem passes (h : Due rules k n outer t session) (hs : Standing C rules (t :: outer) session)
    (hnext : Replaces rules t next session) : Promised rules n outer next session := by
  have hq := h.clear.quiet
  obtain ⟨v, hv⟩ := h.value
  rw [Promised, hnext.scope_eq hs]
  by_cases hr : Ripe rules t.scope t.tree
  · exact ⟨k, v, h.clear.mono (Nat.le_succ k), (hnext.leap hq).descends hr hv, Or.inl h.le⟩
  · refine ⟨k + 1, v, h.clear, (hnext.leap hq).forth hv, Or.inr ⟨(hnext.ripe hq).resolve_left hr, ?_⟩⟩
    rcases h.steps with hle | ⟨hr', -⟩
    · omega
    · exact absurd hr' hr

/-- What the term became does not lead to a term under way, nor back to the term. -/
theorem not_leads (h : Due rules k n outer t session) (hs : Standing C rules (t :: outer) session)
    (hnext : Replaces rules t next session) : ∀ f ∈ t :: outer, ¬ session.cache.Leads next f := by
  have hscope := hnext.scope_eq hs
  have hq := h.clear.quiet
  obtain ⟨v, hv⟩ := h.value
  intro f hf hlead
  rcases List.mem_cons.mp hf with rfl | hf
  · rcases (hs.reads hq).leads hs.canonical hs.orderly (C.of_owns hnext.owns) hlead with rfl | hback
    · exact hnext.ne rfl
    · -- on the way round the bound would get smaller, but it is the least
      have hspared := (hnext.leap hq).spares (hscope ▸ hback) (hnext.ripe hq) hv
      rw [h.least] at hspared
      cases hspared
  · have hnone := h.clear.valueless f hf
    rw [(hs.orderly.leads_has (C.of_owns hnext.owns) hlead).2, hscope] at hnone
    rcases (hs.reads hq).leads hs.canonical hs.orderly (C.of_owns hnext.owns) hlead with rfl | hleap
    · rw [(hnext.leap hq).forth hv] at hnone
      cases hnone
    · rw [hscope] at hleap
      rw [hleap.forth ((hnext.leap hq).forth hv)] at hnone
      cases hnone

end Due

/-! ## Settling -/

namespace Reduction

variable {rewriter : Rewriter}

/-- A normal form is settled already. -/
theorem settle_of_normal {D : Discipline Session} (hs : D.sound session)
    (hn : session.cache.isNormal t = true) (n : Nat) :
    D.Yields (settle rewriter n t) session (fun u session' => u = t ∧ session' = session)
      (fun fault session' => fault = .outOfSteps ∧ n = 0 ∧ session' = session) := by
  cases n with
  | zero => exact .throw hs ⟨rfl, rfl, rfl⟩
  | succ n =>
    unfold settle
    refine readCache ?_
    rw [if_pos hn]
    exact .pure hs ⟨rfl, rfl⟩

/-- What settling within so many steps is to achieve for a term that is neither linked nor a normal form. -/
def Settles (C : Custody) (rewriter : Rewriter) (sure : Prop) (n : Nat) : Prop :=
  ∀ {outer : List Term} {session : Session} {t : Term}, Standing C rewriter.rules (t :: outer) session →
    session.Accounts (t :: outer) → session.cache.isEvaluating t = false →
    (sure → Promised rewriter.rules n outer t session) →
    (settling C rewriter.rules outer).Yields (settle rewriter n t) session (Settled sure outer t)
      (Unsettled (catchesCycles rewriter) sure outer)

/-- To settle terms that are not linked is to reduce terms. -/
theorem settler_of_settles (ih : Settles C rewriter sure n) (hle : sure → 2 * bound ≤ n) :
    Settler C rewriter.rules (catchesCycles rewriter) sure bound
      (fun u => do settle rewriter n (← resolve u)) := by
  intro frames session t hs hacc ht hhead hsure
  have hpromised : ∀ {session' : Session}, sure → session'.bench.journal.Quiet →
      Promised rewriter.rules n frames t session' := by
    intro session' h hq
    obtain ⟨hclear, v, hv⟩ := hsure h
    exact ⟨bound, v, hclear.later hq, hv, Or.inl (hle h)⟩
  refine .bind ((resolve_settles hs hacc (C.of_owns ht)).mono_fault ?_) ?_
  · rintro fault session' - - ⟨rfl, hloose⟩
    refine .of_accounts hacc fun h => ?_
    obtain ⟨hclear, v, hv⟩ := hsure h
    exact resolve_finds hs hacc hclear.quiet ht (hclear.not_leads hs ht hv) hloose
  rintro last session₁ hs₁ hp₁ ⟨hbench, hacc₁, hlead₁, hl₁, he₁, hlast, -⟩
  have ht₁ : session₁.bench.store.Owns t := hbench ▸ ht
  have hquiet₁ : sure → session₁.bench.journal.Quiet := fun h => hbench ▸ (hsure h).1.quiet
  cases hn : session₁.cache.isNormal last with
  | true =>
    refine (settle_of_normal hs₁ hn n).mono ?_ ?_
    · rintro u session₂ - - ⟨rfl, rfl⟩
      exact ⟨hs₁.owns_of_leads ht₁ hlead₁, hn, hlead₁, hacc₁, hquiet₁⟩
    · rintro fault session₂ - - ⟨rfl, hzero, -⟩
      refine ⟨fun cycle hc => (by cases hc), fun h => ?_⟩
      exact Nat.ne_of_gt (hpromised h (hquiet₁ h)).pos hzero
  | false =>
    -- there was no link to follow, so the term itself comes under way
    have hlt : last = t := hlast.resolve_right (by simp [hn])
    subst hlt
    refine ih (hs₁.push ht₁ hl₁ hn fun f hf => ?_) (hacc₁.mono (List.subset_cons_self _ _)) he₁
      fun h => hpromised h (hquiet₁ h)
    rcases hhead f hf with hev | hmem
    · exact Or.inl ((hp₁.cache.evaluating f).trans hev)
    · exact Or.inr ⟨last, hmem, .stay hl₁⟩

/-- A term that no step changes is a normal form. -/
theorem settle_irreducible (hs : Standing C rules (t :: outer) session)
    (he : session.cache.isEvaluating t = false) (hadv : Advanced rules sure outer t none session) :
    (settling C rules outer).Yields
      (do record (.irreducible t); learn (·.addNormal t); return t : Reduction Term) session
      (Settled sure outer t) (fun _ _ => False) := by
  refine .bind ((Standing.leave he (record_settles hs hadv.accounts rfl)).mono_fault
    fun _ _ _ _ hF => hF.1.elim) ?_
  rintro - session₁ - hp₁ ⟨⟨hcache₁, hacc₁, -, hquiet₁⟩, hs₁⟩
  have hdone := hs₁.addNormal ((hp₁.cache.evaluating t).trans he) hadv.once (hcache₁ ▸ hadv.children rfl)
    fun hq => hadv.value rfl (hq.earlier hp₁.work.2)
  have hrun : (do learn (·.addNormal t); return t : Reduction Term) session₁ =
      (.ok t, { session₁ with cache := session₁.cache.addNormal t }) := rfl
  refine .of_eq_ok hrun hdone ⟨working.refl _, .addNormal _ t, fun _ h => h⟩ ?_
  refine ⟨hs₁.owns t List.mem_cons_self, ?_, ?_, ?_, fun h => hquiet₁ (hadv.quiet h)⟩
  · exact (Cache.isNormal_addNormal _ t t).mpr (Or.inl rfl)
  · exact .stay (hs₁.unfinished t List.mem_cons_self).1
  · refine (Cache.Accounts.addNormal hacc₁ t).mono fun x hx => hx.1.imp_left fun hmem => ?_
    exact (List.mem_cons.mp hmem).resolve_left fun heq => hx.2 (congrArg Term.id heq)

/-- The links of what the term became are followed. What they lead to may replace the term as well. -/
theorem resolve_replacement (hs : Standing C rules (t :: outer) session)
    (hacc : session.Accounts (t :: outer)) (hnext : Replaces rules t next session)
    (hdue : sure → Due rules k n outer t session) :
    (settling C rules (t :: outer)).Yields (below t (resolve next)) session
      (fun last session' => session'.bench = session.bench ∧ session'.Accounts (t :: outer) ∧
        Replaces rules t last session' ∧ session'.cache.link? last = none ∧
        session'.cache.isEvaluating last = false)
      (Unsettled catches sure outer) := by
  have hfound := fun h => resolve_finds hs hacc (hdue h).clear.quiet hnext.owns ((hdue h).not_leads hs hnext)
  refine (below_yields (G := Unsettled catches sure outer) (resolve_settles hs hacc (C.of_owns hnext.owns))
    ?_ ?_).mono ?_ fun _ _ _ _ hF => hF
  · rintro cycle session' ⟨rfl, hloose⟩
    refine ⟨fun cycle' hc _ => hacc.mono fun x hx => ?_, fun h => hfound h hloose⟩
    cases hc
    rw [Cycle.chain_append, List.append_assoc]
    exact List.mem_append_right _ hx
  · rintro fault session' hno ⟨rfl, hloose⟩
    exact ⟨fun cycle hc => absurd hc (hno cycle), fun h => hfound h hloose⟩
  · rintro last session' hs' - ⟨hbench, hacc', hlead, hl, he, hlast, -⟩
    have hnext' : Replaces rules t next session' := by
      obtain ⟨howns, hne, hderives, hleap, hripe⟩ := hnext
      rw [← hbench] at howns hleap hripe
      exact ⟨howns, hne, hderives, hleap, hripe⟩
    exact ⟨hbench, hacc', hnext'.of_leads hs' hlead hlast, hl, he⟩

/-- The term is linked to what may replace it, and the work goes on there. -/
theorem settle_replacement (ih : Settles C rewriter sure n) (hs : Standing C rewriter.rules (t :: outer) session)
    (hacc : session.Accounts (t :: outer)) (he : session.cache.isEvaluating t = false) (honce : t ∉ outer)
    (hnext : Replaces rewriter.rules t next session) (hl : session.cache.link? next = none)
    (hev : session.cache.isEvaluating next = false)
    (hpromised : sure → Promised rewriter.rules n outer next session) :
    (settling C rewriter.rules outer).Yields
      (do learn (·.setLink t next); settle rewriter n next : Reduction Term) session (Settled sure outer t)
      (Unsettled (catchesCycles rewriter) sure outer) := by
  have hfin := hs.unfinished t List.mem_cons_self
  have hquiet : sure → session.bench.journal.Quiet := fun h => (hpromised h).quiet
  obtain ⟨hs₁, hwaits⟩ := hs.setLink he honce hnext.owns hl hnext.ne hnext.derives hnext.leap
  -- the term is no longer left over itself, but what it is linked to may be
  have hacc₁ := (Cache.Accounts.setLink hacc hs.orderly hfin.1 hl hnext.ne).mono
    (Q := fun x => x ∈ next :: outer ∨ session.bench.journal.Names x) fun x hx => by
      rcases hx with ⟨hx | hx, hid⟩ | rfl
      · rcases List.mem_cons.mp hx with rfl | hx
        · exact absurd rfl hid
        · exact Or.inl (List.mem_cons_of_mem _ hx)
      · exact Or.inr hx
      · exact Or.inl List.mem_cons_self
  have hlink := Cache.leads_setLink_self hnext.ne hl
  refine .bind (learn_yields hs₁ ⟨working.refl _, .setLink hfin.1 hl hnext.ne, fun _ h => h⟩) ?_
  rintro - session₁ - - rfl
  cases hn : session.cache.isNormal next with
  | true =>
    refine (settle_of_normal (D := settling C rewriter.rules outer) hs₁ hn n).mono ?_ ?_
    · rintro u session₂ - - ⟨rfl, rfl⟩
      refine ⟨hnext.owns, hn, hlink, fun x y z hxy hz => ?_, hquiet⟩
      rcases hacc₁ x y z hxy hz with hzn | hz | hz
      · exact Or.inl hzn
      · rcases List.mem_cons.mp hz with rfl | hz
        · exact Or.inl hn
        · exact Or.inr (Or.inl hz)
      · exact Or.inr (Or.inr hz)
    · rintro fault session₂ - - ⟨rfl, hzero, -⟩
      exact ⟨fun cycle hc => (by cases hc), fun h => Nat.ne_of_gt (hpromised h).pos hzero⟩
  | false =>
    refine (ih (hs₁.push hnext.owns hlink.unlinked hn hwaits) hacc₁ hev fun h => ?_).mono ?_
      fun _ _ _ _ hF => hF
    · exact (hpromised h).later (hquiet h)
    rintro u session₂ - hp₂ ⟨howns, hnormal, hlead, hacc₂, hquiet₂⟩
    obtain ⟨x, hx, htx⟩ := hp₂.cache.leads t next hlink
    rw [hx.unique hlead] at htx
    exact ⟨howns, hnormal, htx, hacc₂, hquiet₂⟩

/-- **Settling a term that is neither linked nor a normal form.** -/
theorem settle_settles (rewriter : Rewriter) (n : Nat) : Settles C rewriter sure n := by
  induction n with
  | zero =>
    intro outer session t hs hacc he hsure
    exact .throw (hs.tail he) ⟨fun cycle hc => (by cases hc), fun h => absurd (hsure h).pos (lt_irrefl 0)⟩
  | succ n ih =>
    intro outer session t hs hacc he hsure
    obtain ⟨k, hdue⟩ : ∃ k, sure → Due rewriter.rules k n outer t session := by
      by_cases h : sure
      · exact (hsure h).exists_due.imp fun k hk _ => hk
      · exact ⟨0, fun h' => absurd h' h⟩
    unfold settle
    refine readCache ?_
    -- a term under way is no normal form
    rw [if_neg (by rw [(hs.unfinished t List.mem_cons_self).2]; exact Bool.false_ne_true)]
    have hadvance := advance_settles (settler_of_settles ih fun h => (hdue h).le) hs hacc he
      fun h => ⟨(hdue h).inner, (hdue h).value⟩
    refine .bind ((Standing.leave he hadvance).mono_fault fun _ _ _ _ hF => hF.1) ?_
    rintro r session₁ - hp₁ ⟨hadv, hs₁⟩
    have he₁ := (hp₁.cache.evaluating t).trans he
    cases r with
    | none => exact (settle_irreducible hs₁ he₁ hadv).mono_fault fun _ _ _ _ hF => hF.elim
    | some next =>
      have hdue₁ := fun h => (hdue h).later (hadv.quiet h)
      refine .bind ((Standing.leave he₁ (resolve_replacement hs₁ hadv.accounts (hadv.replaces next rfl)
        hdue₁)).mono_fault fun _ _ _ _ hF => hF.1) ?_
      rintro last session₂ - hp₂ ⟨⟨hbench, hacc₂, hlast, hl₂, hev₂⟩, hs₂⟩
      exact settle_replacement ih hs₂ hacc₂ ((hp₂.cache.evaluating t).trans he₁) hadv.once hlast hl₂ hev₂
        fun h => ((hdue₁ h).later (hbench ▸ hadv.quiet h)).passes hs₂ hlast

/-- **Reducing a term.** -/
theorem reduce_settles (rewriter : Rewriter) (hle : sure → 2 * bound ≤ n) :
    Settler C rewriter.rules (catchesCycles rewriter) sure bound (reduce rewriter n) :=
  settler_of_settles (settle_settles rewriter n) hle

/-- A normalization that runs into a cycle says so and forgets what it left unfinished. -/
theorem abandon_calls (hs : Standing C rules [] session) (t : Term) (cycle : Cycle) {P : α → Session → Prop} :
    (calling C rules).Yields
      (do record (.normalizationFailed t cycle); learn Cache.discardUnfinished; throw (.cycle cycle) : Reduction α)
      session P
      (fun fault session' => fault = .cycle cycle ∧ ∃ inner, Standing C rules [] inner ∧
        (calling C rules).grows session inner ∧ inner.cache = session.cache ∧
        session' = { inner with cache := inner.cache.discardUnfinished }) := by
  refine .bind ((work_stands hs (.record rfl) (Work.record_yields hs.canonical _)).calling.mono_fault
    fun _ _ _ _ hF => hF.1.elim) ?_
  rintro - inner hinner hg ⟨-, hcache, -⟩
  refine .bind (learn_yields hinner.discardUnfinished ⟨working.refl _, fun _ h => h⟩) ?_
  rintro - session' hs' - rfl
  exact .throw hs' ⟨rfl, inner, hinner, hg, hcache, rfl⟩

/-- **Normalizing a term** of any store, with nothing else under way. A call that does not run out of steps leaves
nothing unfinished but what the journal names, and a call that fails not even that. A call for a term of the
store that has a value succeeds. -/
theorem normalize_settles (sure : Prop) (bound : Nat) (rewriter : Rewriter) (n : Nat)
    (hs : Standing C rewriter.rules [] session)
    (hacc : session.Accounts []) (ht : C.has session.bench.store t)
    (hsure : sure → session.bench.journal.Quiet ∧ session.bench.store.Owns t ∧
      ∃ v, evaluate rewriter.rules t.scope bound t.tree = some v ∧ 2 * bound ≤ n) :
    (calling C rewriter.rules).Yields (normalize rewriter n t) session
      (fun r session' => ∃ u, Settled sure [] u r session' ∧ session'.bench.store.Owns u ∧
        (session.bench.store.contains t = true → u = t))
      (fun fault session' =>
        (∀ cycle, fault = .cycle cycle → session'.cache.Accounts fun _ => False) ∧ ¬ sure) := by
  unfold normalize
  refine .bind ((work_settles hs hacc (.adopt t) (Work.adopt_yields hs.canonical ht)).calling.mono_fault
    fun _ _ _ _ hF => hF.1.elim) ?_
  rintro u session₁ hs₁ - ⟨⟨hu, hsame, -⟩, -, hacc₁, hquiet₁⟩
  refine .bind ((record_settles hs₁ hacc₁ rfl).calling.mono_fault fun _ _ _ _ hF => hF.elim) ?_
  rintro - session₂ hs₂ - ⟨-, hacc₂, hstore₂, hquiet₂⟩
  have hreduce := reduce_settles rewriter (fun h => (hsure h).2.2.choose_spec.2) hs₂ hacc₂ (hstore₂ ▸ hu)
    (by simp) fun h => by
      obtain ⟨hq, hown, v, hv, -⟩ := hsure h
      rw [(hsame (hs.canonical.contains hown)).1]
      exact ⟨⟨hquiet₂ (hquiet₁ hq), by simp⟩, v, hv⟩
  refine .bind ((orCycle_yields hreduce).calling.mono_fault
    fun fault _ _ _ hF => ⟨fun cycle he => absurd he (hF.2 cycle), hF.1.unsure⟩) ?_
  rintro result session₃ hs₃ hg₃ hresult
  match result, hresult with
  | .ok r, ⟨howns, hnormal, hlead, hacc₃, hquiet₃⟩ =>
    refine .bind ((record_settles hs₃ hacc₃ rfl).calling.mono_fault fun _ _ _ _ hF => hF.elim) ?_
    rintro - session₄ hs₄ hg₄ ⟨hcache₄, hacc₄, hstore₄, hquiet₄⟩
    refine .pure hs₄ ⟨u, ⟨hstore₄ ▸ howns, hcache₄ ▸ hnormal, hcache₄ ▸ hlead, hacc₄,
      fun h => hquiet₄ (hquiet₃ h)⟩, ?_, fun hc => (hsame hc).1⟩
    exact (hstore₂ ▸ hu).mono (working.trans hg₃.1 hg₄.1).1
  | .error cycle, hF =>
    refine (abandon_calls hs₃ u cycle).mono_fault ?_
    rintro fault _ - - ⟨rfl, session₄, hs₄, -, -, rfl⟩
    exact ⟨fun _ _ => Cache.accounts_discardUnfinished hs₄.orderly, hF.unsure⟩

end Reduction

end TermGraph
