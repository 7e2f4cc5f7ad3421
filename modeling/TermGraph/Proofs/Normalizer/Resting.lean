import TermGraph.Proofs.Normalizer.Journals
import TermGraph.Proofs.Normalizer.Settling

/-!
# A normalizer at rest

Rewriting outside of a normalization may run into a cycle as well, and then nothing is forgotten: links remain to terms
that nobody finished and that no journal names. Still every chain of links comes to an end, and the next run starts in
order. For who is to blame for an unfinished term matters only to what a run says about cycles, and the journal, where
the blame is put, makes no difference to what the run does. So the run may be looked at as if the journal named the
ends of all chains.

## Main statements

* `Resting` — the session is in order with nothing under way, whatever the journal says
* `Resting.accounted` — earlier notes under which every chain is accounted for
* `Reduction.reduce_keeps`, `Reduction.normalize_keeps` — **reducing and normalizing leave the session at rest**,
  whichever way they end
-/

namespace TermGraph

variable {C : Custody} {rules given : List Rule} {session : Session} {t e next : Term} {α : Type}

/-! ## Blame -/

namespace Journal

/-- A journal that blames the terms, and one that is in no store. -/
def blaming (terms : List Term) : Journal :=
  let nobody : Term := .var ⟨⟨0, 0⟩, .zero⟩ ""
  #[.raised .contraction { origin := nobody, outer := terms } nobody]

variable {journal : Journal} {terms : List Term}

theorem not_quiet_blaming (terms : List Term) (journal : Journal) : ¬ Quiet (blaming terms ++ journal) := by
  intro hq
  have hmem := Array.mem_append_left journal (Array.mem_singleton_self _ : _ ∈ blaming terms)
  exact absurd (hq _ hmem) (List.cons_ne_nil _ _)

theorem names_blaming (ht : t ∈ terms) : Names (blaming terms ++ journal) t :=
  ⟨_, Array.mem_append_left journal (Array.mem_singleton_self _ : _ ∈ blaming terms),
    List.mem_cons_of_mem _ (List.mem_cons_of_mem _ ht)⟩

end Journal

/-! ## Sessions at rest -/

/-- With other notes before it, the session is in order with nothing under way. -/
def Resting (C : Custody) (rules : List Rule) (session : Session) : Prop :=
  ∃ earlier, Standing C rules [] (session.after earlier)

/-- Earlier notes on the same bench. -/
theorem working.grows_after {earlier : Journal} {bench bench' : Bench} :
    working.grows (bench.after earlier) (bench'.after earlier) ↔ working.grows bench bench' := by
  simp only [working, Bench.after, Array.toList_append, List.prefix_append_right_inj]

/-- The ends of the chains of links. -/
def Cache.ends (cache : Cache) : List Term := cache.links.toList.map fun entry => cache.chainEnd entry.2

theorem Cache.mem_ends {cache : Cache} (hl : cache.link? t = some next) (he : cache.Leads t e) : e ∈ cache.ends := by
  have hentry : (t.id, next) ∈ cache.links.toList := Std.ExtTreeMap.mem_toList_iff_getElem?_eq_some.mpr hl
  exact List.mem_map.mpr ⟨_, hentry, chainEnd_eq (he.tail hl)⟩

namespace Resting

variable (h : Resting C rules session)

include h

/-- With any notes before it that are not quiet, the session is in order. -/
theorem standing {earlier : Journal} (hq : ¬ (session.after earlier).bench.journal.Quiet) :
    Standing C rules [] (session.after earlier) := by
  obtain ⟨_, h⟩ := h
  exact ⟨h.canonical, h.within, h.apart, h.orderly, h.owns, h.unfinished, h.waits, h.evaluating, h.derived,
    fun hquiet => absurd hquiet hq⟩

/-- **With a note before it that names the end of every chain, the session is in order and accounts for every
chain.** -/
theorem accounted :
    ∃ earlier, Standing C rules [] (session.after earlier) ∧ (session.after earlier).Accounts [] :=
  ⟨.blaming session.cache.ends, h.standing (Journal.not_quiet_blaming _ _),
    fun _ _ _ hl he => Or.inr (Or.inr (Journal.names_blaming (Cache.mem_ends hl he)))⟩

/-- The bench may be worked at. -/
theorem bench {bench : Bench} (hb : bench.store.Canonical) (hg : working.grows session.bench bench) :
    Resting C rules { session with bench } := by
  obtain ⟨earlier, h⟩ := h
  have hbench : (bench.after earlier).store.Canonical := hb
  exact ⟨earlier, h.bench hbench (working.grows_after.mpr hg)⟩

/-- Terms may be reduced. -/
theorem reducing : Reducing C rules session := by
  obtain ⟨_, h⟩ := h
  exact ⟨h.canonical, h.orderly.within, fun t next hl => (h.orderly.linked t next hl).2.1, h.within⟩

/-- Everything may be forgotten. -/
theorem forget : Resting C rules { session with cache := .empty } := by
  obtain ⟨earlier, h⟩ := h
  exact ⟨earlier, h.canonical, h.within, h.apart, .empty, h.owns, by simp, .nil,
    fun t ht => by simp [Session.after, Cache.isEvaluating, Cache.empty] at ht, .empty, fun _ => .empty⟩

end Resting

/-! ## Staying at rest -/

/-- The discipline of a session that is at rest for one set of rules, while others are used as well. -/
def keeping (C : Custody) (rules given : List Rule) : Discipline Session :=
  { reducing C given with
    sound := fun session => Resting C rules session ∧ ∀ rule ∈ given, rule.Within C session.bench.store }

theorem keeping_hosts (C : Custody) (rules given : List Rule) : (keeping C rules given).Hosts C where
  canonical hs := by
    obtain ⟨⟨_, h⟩, -⟩ := hs
    exact h.canonical
  within hs := by
    obtain ⟨⟨_, h⟩, -⟩ := hs
    exact h.orderly.within
  grows hg := hg
  bench hs hb hg := ⟨⟨hs.1.bench hb hg, fun rule hr => (hs.2 rule hr).mono hg.1⟩, hg⟩

namespace Reduction

/-- What leaves a session in order that accounts for every chain leaves a session at rest, if the journal makes no
difference to it. -/
theorem keeps_of_calling {x : Reduction α} {P : Journal → α → Session → Prop}
    {F : Journal → Fault → Session → Prop}
    (hx : ∀ earlier, Ignores (Session.after earlier) x) (hs : (keeping C rules given).sound session)
    (hrun : ∀ earlier, Standing C rules [] (session.after earlier) → (session.after earlier).Accounts [] →
      (calling C rules).Yields x (session.after earlier) (P earlier) (F earlier)) :
    (keeping C rules given).Yields x session (fun a session' => ∃ earlier, P earlier a (session'.after earlier))
      fun _ _ => True := by
  obtain ⟨earlier, hst, hacc⟩ := hs.1.accounted
  have hyields := hrun earlier hst hacc
  have he := hx earlier session
  have hleft : ∀ session', (calling C rules).sound (session'.after earlier) →
      (calling C rules).grows (session.after earlier) (session'.after earlier) →
      (keeping C rules given).sound session' ∧ (keeping C rules given).grows session session' := by
    intro session' hs' hg'
    have hg : working.grows session.bench session'.bench := working.grows_after.mp hg'.1
    exact ⟨⟨⟨earlier, hs'⟩, fun rule hr => (hs.2 rule hr).mono hg.1⟩, hg⟩
  rcases h : x session with ⟨fault | a, session'⟩
  · rw [h] at he
    obtain ⟨h1, h2, -⟩ := hyields.error he
    obtain ⟨hsound, hgrows⟩ := hleft session' h1 h2
    exact .of_eq_error h hsound hgrows trivial
  · rw [h] at he
    obtain ⟨h1, h2, h3⟩ := hyields.ok he
    obtain ⟨hsound, hgrows⟩ := hleft session' h1 h2
    exact .of_eq_ok h hsound hgrows ⟨earlier, h3⟩

/-- **Reducing a term leaves the session at rest.** -/
theorem reduce_keeps (rewriter : Rewriter) (given : List Rule) (n : Nat) :
    Hosted (keeping C rewriter.rules given) (Reduction.reduce rewriter n) := by
  intro session t hs ht
  have hreduce : Settler C rewriter.rules (catchesCycles rewriter) False 0 (Reduction.reduce rewriter n) :=
    reduce_settles rewriter False.elim
  have hkeeps := keeps_of_calling (fun earlier => reduce_ignores earlier rewriter n t) hs fun _ hst hacc =>
    (hreduce hst hacc ht (by simp) False.elim).calling
  have hguarded := reduce_hosted (List.Subset.refl rewriter.rules) n hs.1.reducing ht
  exact (hkeeps.and hguarded).mono (fun _ _ _ _ hp => hp.2) fun _ _ _ _ hf => hf.2

/-- **Normalizing a term leaves the session at rest.** -/
theorem normalize_keeps (rewriter : Rewriter) (n : Nat) (hs : (keeping C rewriter.rules given).sound session)
    (ht : C.has session.bench.store t) :
    (keeping C rewriter.rules given).Yields (normalize rewriter n t) session (fun _ _ => True) fun _ _ => True :=
  (keeps_of_calling (fun earlier => normalize_ignores earlier rewriter n t) hs fun _ hst hacc =>
    normalize_settles False 0 rewriter n hst hacc ht False.elim).mono (fun _ _ _ _ _ => trivial)
      fun _ _ _ _ hf => hf

end Reduction

end TermGraph
