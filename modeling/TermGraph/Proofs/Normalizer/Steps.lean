import TermGraph.Proofs.Normalizer.Standing

/-!
# Single steps of a normalization

What the steps that a normalization is made of do to a session that is in order: work at the bench, notes in
the journal, following links, and beginning and ending an evaluation.
-/

namespace TermGraph

variable {C : Custody} {rules : List Rule} {frames outer terms : List Term} {session : Session}
  {t : Term} {α : Type}

/-! ## Leaving a term -/

/-- What is done while a term is under way is done while the terms around it are. -/
theorem Standing.leave {x : Reduction α} {P : α → Session → Prop} {F : Fault → Session → Prop}
    (he : session.cache.isEvaluating t = false)
    (hx : (settling C rules (t :: outer)).Yields x session P F) :
    (settling C rules outer).Yields x session
      (fun a session' => P a session' ∧ Standing C rules (t :: outer) session')
      (fun fault session' => F fault session' ∧ Standing C rules (t :: outer) session') := by
  rcases h : x session with ⟨fault | a, session'⟩
  · obtain ⟨h1, h2, h3⟩ := hx.error h
    exact .of_eq_error h (h1.tail ((h2.cache.evaluating t).trans he)) h2 ⟨h3, h1⟩
  · obtain ⟨h1, h2, h3⟩ := hx.ok h
    exact .of_eq_ok h (h1.tail ((h2.cache.evaluating t).trans he)) h2 ⟨h3, h1⟩

/-! ## The bench and the journal -/

theorem Session.Accounts.bench {bench : Bench} (h : session.Accounts terms)
    (hg : working.grows session.bench bench) : ({ session with bench } : Session).Accounts terms :=
  Cache.Accounts.mono h fun _ he => he.imp_right fun hn => hn.mono hg.2

namespace Reduction

/-- Work at the bench keeps a session in order. -/
theorem work_stands {w : Work α} {P : α → Bench → Prop} {F : Fault → Bench → Prop}
    (hs : Standing C rules frames session) (hd : w.Discreet) (h : working.Yields w session.bench P F) :
    (settling C rules frames).Yields (work w) session
      (fun a session' => P a session'.bench ∧ session'.cache = session.cache ∧
        (session.bench.journal.Quiet → session'.bench.journal.Quiet))
      (fun fault session' => F fault session'.bench ∧ session'.cache = session.cache ∧
        (session.bench.journal.Quiet → session'.bench.journal.Quiet)) := by
  have hafter : (work w session).2.bench = (w session.bench).2 := rfl
  have hquiet : session.bench.journal.Quiet → (work w session).2.bench.journal.Quiet :=
    fun hq => hafter ▸ hd.quiet hq
  have hwork := work_yields (D := settling C rules frames) h fun bench he hb hg =>
    ⟨hs.bench hb hg, hg, .refl _, fun _ hq => he ▸ hd.quiet hq⟩
  exact (hwork.after hquiet).mono (fun _ _ _ _ hP => ⟨hP.1.1, hP.1.2, hP.2⟩)
    fun _ _ _ _ hF => ⟨hF.1.1, hF.1.2, hF.2⟩

/-- Work that passes over nothing. -/
theorem work_settles {w : Work α} {P : α → Bench → Prop} {F : Fault → Bench → Prop}
    (hs : Standing C rules frames session) (hacc : session.Accounts terms) (hd : w.Discreet)
    (h : working.Yields w session.bench P F) :
    (settling C rules frames).Yields (work w) session
      (fun a session' => P a session'.bench ∧ session'.cache = session.cache ∧ session'.Accounts terms ∧
        (session.bench.journal.Quiet → session'.bench.journal.Quiet))
      (fun fault session' => F fault session'.bench ∧ session'.cache = session.cache ∧
        session'.Accounts terms ∧ (session.bench.journal.Quiet → session'.bench.journal.Quiet)) := by
  refine (work_stands hs hd h).mono ?_ ?_
  · rintro a session' hs' hg ⟨hp, hc, hquiet⟩
    refine ⟨hp, hc, ?_, hquiet⟩
    have hacc' := hacc.bench hg.work
    rwa [Session.Accounts, hc]
  · rintro fault session' hs' hg ⟨hf, hc, hquiet⟩
    refine ⟨hf, hc, ?_, hquiet⟩
    have hacc' := hacc.bench hg.work
    rwa [Session.Accounts, hc]

/-- A note on anything but a cycle that was passed over. -/
theorem record_settles {event : Event} (hs : Standing C rules frames session)
    (hacc : session.Accounts terms) (he : event.passedOver = []) :
    (settling C rules frames).Yields (record event) session
      (fun _ session' => session'.cache = session.cache ∧ session'.Accounts terms ∧
        session'.bench.store = session.bench.store ∧
        (session.bench.journal.Quiet → session'.bench.journal.Quiet))
      (fun _ _ => False) :=
  (work_settles hs hacc (.record he) (Work.record_yields hs.canonical event)).mono
    (fun _ _ _ _ h => ⟨h.2.1, h.2.2.1, h.1.1, h.2.2.2⟩) fun _ _ _ _ h => h.1

/-- A note on a cycle that was passed over: whatever it names is accounted for. -/
theorem record_raised_settles {rule : Rule} {cycle : Cycle} (hs : Standing C rules frames session)
    (hacc : session.Accounts (cycle.chain ++ terms)) (hcalm : ¬ ∀ rule ∈ rules, rule.Calm) :
    (settling C rules frames).Yields (record (.raised rule cycle t)) session
      (fun _ session' => session'.cache = session.cache ∧ session'.Accounts terms ∧
        session'.bench.store = session.bench.store ∧ session'.bench.journal.Names t)
      (fun _ _ => False) := by
  let event : Event := .raised rule cycle t
  let bench : Bench := { session.bench with journal := session.bench.journal.push event }
  have he : record event session = (.ok (), { session with bench }) := rfl
  have hg : working.grows session.bench bench := by
    refine ⟨le_refl _, ?_⟩
    rw [Array.toList_push]
    exact List.prefix_append _ _
  have hnames : ∀ u ∈ t :: cycle.chain, bench.journal.Names u := fun u hu =>
    ⟨event, Array.mem_push_self, hu⟩
  refine .of_eq_ok he (hs.bench hs.canonical hg) ⟨hg, .refl _, fun h => absurd h hcalm⟩ ⟨rfl, ?_, rfl, ?_⟩
  · refine Cache.Accounts.mono hacc fun x hx => ?_
    rcases hx with hx | hx
    · rcases List.mem_append.mp hx with hx | hx
      · exact Or.inr (hnames x (List.mem_cons_of_mem _ hx))
      · exact Or.inl hx
    · exact Or.inr (hx.mono hg.2)
  · exact hnames t List.mem_cons_self

/-! ## Following links -/

/-- Following the links of a term ends in a normal form, or in the term itself if it is not linked. At most the chain
that was followed is cut short. -/
theorem resolve_settles (hs : Standing C rules frames session) (hacc : session.Accounts terms)
    (ht : C.has session.bench.store t) :
    (settling C rules frames).Yields (resolve t) session
      (fun last session' => session'.bench = session.bench ∧ session'.Accounts terms ∧
        session'.cache.Leads t last ∧ session'.cache.link? last = none ∧
        session'.cache.isEvaluating last = false ∧
        (last = t ∨ session'.cache.isNormal last = true) ∧
        (session'.cache = session.cache ∨ session.cache.link? t ≠ none ∧ session.cache.Leads t last ∧
          session'.cache = session.cache.setLink t last))
      (fun _ session' => session' = session ∧ ∃ e, session.cache.Leads t e ∧
        (session.cache.isEvaluating t = true ∨
          session.cache.link? t ≠ none ∧ session.cache.isNormal e = false)) := by
  have hidle : ∀ u, session.cache.isEvaluating u = true → session.cache.link? u = none :=
    fun u hu => (hs.orderly.idle u hu).1
  obtain ⟨e, he⟩ := hs.orderly.ends t
  have hresolve := Cache.resolve_eq hidle he
  have hrun : ∀ {last : Term} {cache : Cache}, session.cache.resolve t = .ok (last, cache) →
      resolve t session = (.ok last, { session with cache }) := by
    intro last cache hr
    rw [resolve_apply, hr]
  have hfail : ∀ {cycle : Cycle}, session.cache.resolve t = .error cycle →
      resolve t session = (.error (.cycle cycle), session) := by
    intro cycle hr
    rw [resolve_apply, hr]
  by_cases hev : session.cache.isEvaluating t = true
  · rw [if_pos hev] at hresolve
    exact .of_eq_error (hfail hresolve) hs (Progress.refl rules session) ⟨rfl, e, he, Or.inl hev⟩
  · rw [if_neg hev] at hresolve
    by_cases hl : session.cache.link? t = none
    · rw [if_pos hl] at hresolve
      exact .of_eq_ok (hrun hresolve) hs (Progress.refl rules session)
        ⟨rfl, hacc, .stay hl, hl, Bool.eq_false_iff.mpr hev, Or.inl rfl, Or.inl rfl⟩
    · rw [if_neg hl] at hresolve
      by_cases hn : session.cache.isNormal e = true
      · rw [if_pos hn] at hresolve
        have hleads : ∀ {u x : Term}, session.cache.Leads u x →
            (session.cache.setLink t e).Leads u x := fun hx => Cache.leads_setLink_end hl he hx
        refine .of_eq_ok (hrun hresolve) (hs.setLink_end ht hl he) ⟨working.refl _, ?_, fun _ h => h⟩ ?_
        · refine ⟨fun _ h => h, fun _ => Cache.link?_setLink_ne_none t e, fun u x hx => ?_, fun _ => rfl⟩
          exact ⟨x, hleads (.stay hx.unlinked), hleads hx⟩
        · refine ⟨rfl, Cache.Accounts.setLink_end hacc hs.orderly hl he, hleads he,
            (hleads he).unlinked, hs.orderly.not_evaluating hn, Or.inr hn, Or.inr ⟨hl, he, rfl⟩⟩
      · rw [if_neg hn] at hresolve
        exact .of_eq_error (hfail hresolve) hs (Progress.refl rules session)
          ⟨rfl, e, he, Or.inr ⟨hl, Bool.eq_false_iff.mpr hn⟩⟩

/-- Following the links of a term succeeds if they do not lead to a term under way, and no term that was left
unfinished is named. -/
theorem resolve_finds (hs : Standing C rules frames session) (hacc : session.Accounts frames)
    (hq : session.bench.journal.Quiet) (ht : session.bench.store.Owns t)
    (hno : ∀ f ∈ frames, ¬ session.cache.Leads t f) :
    ¬ ∃ e, session.cache.Leads t e ∧ (session.cache.isEvaluating t = true ∨
      session.cache.link? t ≠ none ∧ session.cache.isNormal e = false) := by
  rintro ⟨e, he, hev | ⟨hl, hn⟩⟩
  · obtain ⟨f, hf, hid⟩ := hs.evaluating t hev
    have hft : f = t := hs.eq_of_id_eq ht hf hid
    subst hft
    exact hno f hf (.stay (hs.orderly.idle f hev).1)
  · obtain ⟨next, hnext⟩ := Option.ne_none_iff_exists'.mp hl
    rcases hacc t next e hnext he with hn' | hf | hnamed
    · rw [hn] at hn'
      cases hn'
    · exact hno e hf he
    · exact hq.not_names hnamed

/-! ## Evaluating -/

/-- A term of the stack is evaluated for as long as the computation lasts. -/
theorem evaluating_settles {x : Reduction α} {P : α → Session → Prop} {F : Fault → Session → Prop}
    (hs : Standing C rules (t :: outer) session) (he : session.cache.isEvaluating t = false)
    (hmem : t ∉ outer)
    (hx : Standing C rules (t :: outer) { session with cache := session.cache.beginEvaluating t } →
      (settling C rules (t :: outer)).Yields x
        { session with cache := session.cache.beginEvaluating t } P F) :
    (settling C rules (t :: outer)).Yields (evaluating t x) session
      (fun a session' => ∃ inner, P a inner ∧
        session' = { inner with cache := inner.cache.endEvaluating t })
      (fun fault session' => ∃ inner, F fault inner ∧
        session' = { inner with cache := inner.cache.endEvaluating t }) :=
  evaluating_yields (hx hs.beginEvaluating) fun _ hinner hprogress =>
    ⟨hinner.endEvaluating hmem, hprogress.endEvaluating he⟩

end Reduction

end TermGraph
