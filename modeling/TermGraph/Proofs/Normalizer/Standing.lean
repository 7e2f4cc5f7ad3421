import Mathlib.Data.List.Chain
import TermGraph.Proofs.Normalizer.Orderly
import TermGraph.Proofs.Normalizer.Quiet
import TermGraph.Proofs.Rewriting.Derivation

/-!
# The terms under way

While a term is settled its children and the conditions of rules are settled too, so at any time there is a
stack of terms under way, the innermost first. A term of the stack is being evaluated or waits for a child
that has become the next inner term. No term of the stack is linked or a normal form, and every term that is
being evaluated is on the stack.

Links that lead to no normal form lead to a term of the stack, or to one that was left unfinished when a rule
that ran into a cycle was passed over. Whatever is passed over, every link stands for a derivation; only what
links say about evaluation depends on it.

## Main statements

* `settling` — **the discipline of a normalization, for a given stack**
* `Standing.not_mem` — a term whose children are settled is on the stack once only
* `Standing.derives` — a term rewrites to the end of its chain of links
-/

namespace TermGraph

/-! ## How knowledge grows -/

/-- Normal forms and linked terms remain so, chains of links only get longer or shorter, and the same terms are being
evaluated. -/
structure Cache.Follows (cache cache' : Cache) : Prop where
  normal : ∀ t, cache.isNormal t = true → cache'.isNormal t = true
  linked : ∀ t, cache.link? t ≠ none → cache'.link? t ≠ none
  leads : ∀ t e, cache.Leads t e → ∃ e', cache'.Leads e e' ∧ cache'.Leads t e'
  evaluating : ∀ t, cache'.isEvaluating t = cache.isEvaluating t

namespace Cache.Follows

variable {cache cache' cache'' : Cache} {t e : Term}

theorem refl (cache : Cache) : cache.Follows cache where
  normal _ h := h
  linked _ h := h
  leads _ e h := ⟨e, .stay h.unlinked, h⟩
  evaluating _ := rfl

theorem trans (h : cache.Follows cache') (h' : cache'.Follows cache'') : cache.Follows cache'' where
  normal t ht := h'.normal t (h.normal t ht)
  linked t ht := h'.linked t (h.linked t ht)
  leads t e he := by
    obtain ⟨e', hee, hte⟩ := h.leads t e he
    obtain ⟨x, hx, hex⟩ := h'.leads e e' hee
    obtain ⟨y, hy, hty⟩ := h'.leads t e' hte
    rw [hy.unique hx] at hty
    exact ⟨x, hex, hty⟩
  evaluating t := (h'.evaluating t).trans (h.evaluating t)

/-- A term that leads to a normal form goes on leading there. -/
theorem leads_normal (h : cache.Follows cache')
    (ho : ∀ u, cache'.isNormal u = true → cache'.link? u = none) (he : cache.Leads t e)
    (hn : cache.isNormal e = true) : cache'.Leads t e := by
  obtain ⟨x, hx, htx⟩ := h.leads t e he
  rwa [hx.eq_of_unlinked (ho e (h.normal e hn))] at htx

end Cache.Follows

/-- What a step of a normalization does to the session. -/
structure Progress (rules : List Rule) (session session' : Session) : Prop where
  work : working.grows session.bench session'.bench
  cache : session.cache.Follows session'.cache
  calm : (∀ rule ∈ rules, rule.Calm) → session.bench.journal.Quiet → session'.bench.journal.Quiet

theorem Progress.refl (rules : List Rule) (session : Session) : Progress rules session session :=
  ⟨working.refl _, .refl _, fun _ h => h⟩

theorem Progress.trans {rules : List Rule} {session session' session'' : Session}
    (h : Progress rules session session') (h' : Progress rules session' session'') :
    Progress rules session session'' :=
  ⟨working.trans h.work h'.work, h.cache.trans h'.cache, fun hc hq => h'.calm hc (h.calm hc hq)⟩

/-- A term that was not being evaluated before is not being evaluated after its evaluation. -/
theorem Progress.endEvaluating {rules : List Rule} {session session' : Session} {t : Term}
    (h : Progress rules { session with cache := session.cache.beginEvaluating t } session')
    (he : session.cache.isEvaluating t = false) :
    Progress rules session { session' with cache := session'.cache.endEvaluating t } where
  work := h.work
  cache := by
    refine ⟨h.cache.normal, h.cache.linked, fun u x hx => ?_, fun u => ?_⟩
    · obtain ⟨y, hxy, huy⟩ := h.cache.leads u x (hx.congr fun _ => rfl)
      exact ⟨y, hxy.congr fun _ => rfl, huy.congr fun _ => rfl⟩
    · rw [Bool.eq_iff_iff, session'.cache.isEvaluating_endEvaluating, h.cache.evaluating,
        session.cache.isEvaluating_beginEvaluating]
      constructor
      · rintro ⟨hne, hid | hu⟩
        · exact absurd hid hne
        · exact hu
      · intro hu
        refine ⟨fun hid => ?_, Or.inr hu⟩
        rw [session.cache.isEvaluating_congr hid, hu] at he
        cases he
  calm := h.calm

/-! ## The stack -/

/-- The outer term is being evaluated, or waits for a child that has become the inner term. -/
def Cache.Waits (cache : Cache) (inner outer : Term) : Prop :=
  cache.isEvaluating outer = true ∨ ∃ c ∈ outer.children, cache.Leads c inner

/-- The session is in order while the terms of the stack are under way. -/
structure Standing (C : Custody) (rules : List Rule) (frames : List Term) (session : Session) : Prop where
  canonical : session.bench.store.Canonical
  within : ∀ rule ∈ rules, rule.Within C session.bench.store
  apart : ∀ rule ∈ rules, rule.scope? ≠ some session.bench.store.scope
  orderly : session.cache.Orderly C rules session.bench.store
  owns : ∀ f ∈ frames, session.bench.store.Owns f
  unfinished : ∀ f ∈ frames, session.cache.link? f = none ∧ session.cache.isNormal f = false
  waits : frames.IsChain session.cache.Waits
  evaluating : ∀ t, session.cache.isEvaluating t = true → ∃ f ∈ frames, f.id = t.id
  derived : session.cache.Related C (Derives rules) session.bench.store
  reads : session.bench.journal.Quiet → session.cache.Reads C rules session.bench.store

/-- **The discipline of a normalization while the terms of the stack are under way.** -/
def settling (C : Custody) (rules : List Rule) (frames : List Term) : Discipline Session where
  sound := Standing C rules frames
  grows := Progress rules
  refl := Progress.refl rules
  trans := Progress.trans

/-- The discipline of whole calls, between which nothing is under way and unfinished work may be forgotten. -/
def calling (C : Custody) (rules : List Rule) : Discipline Session where
  sound := Standing C rules []
  grows session session' := working.grows session.bench session'.bench ∧
    ((∀ rule ∈ rules, rule.Calm) → session.bench.journal.Quiet → session'.bench.journal.Quiet)
  refl _ := ⟨working.refl _, fun _ h => h⟩
  trans h h' := ⟨working.trans h.1 h'.1, fun hc hq => h'.2 hc (h.2 hc hq)⟩

/-- What keeps to the discipline of a normalization keeps to that of whole calls. -/
theorem Discipline.Yields.calling {C : Custody} {rules : List Rule} {α : Type} {x : Reduction α}
    {session : Session} {P : α → Session → Prop} {F : Fault → Session → Prop}
    (hx : (settling C rules []).Yields x session P F) : (calling C rules).Yields x session P F :=
  hx.relax (fun _ h => h) fun _ h => ⟨h.work, h.calm⟩

/-- Every chain of links ends in a normal form, in one of the terms, or in a term that the journal names. -/
def Session.Accounts (session : Session) (terms : List Term) : Prop :=
  session.cache.Accounts fun e => e ∈ terms ∨ session.bench.journal.Names e

theorem Session.Accounts.mono {session : Session} {terms terms' : List Term} (h : session.Accounts terms)
    (hsub : terms ⊆ terms') : session.Accounts terms' :=
  Cache.Accounts.mono h fun _ he => he.imp_left fun hm => hsub hm

/-- A term that the journal names need not be accounted for otherwise. -/
theorem Session.Accounts.of_names {session : Session} {t : Term} {terms : List Term}
    (h : session.Accounts (t :: terms)) (ht : session.bench.journal.Names t) : session.Accounts terms := by
  refine Cache.Accounts.mono h fun e he => ?_
  rcases he with he | he
  · rcases List.mem_cons.mp he with rfl | he
    · exact Or.inr ht
    · exact Or.inl he
  · exact Or.inr he

namespace Standing

variable {C : Custody} {rules : List Rule} {frames outer : List Term} {session session' : Session}
  {t u next : Term}

/-- The innermost term is done with. -/
theorem tail (h : Standing C rules (t :: outer) session)
    (he : session.cache.isEvaluating t = false) : Standing C rules outer session where
  canonical := h.canonical
  within := h.within
  apart := h.apart
  orderly := h.orderly
  owns f hf := h.owns f (List.mem_cons_of_mem _ hf)
  unfinished f hf := h.unfinished f (List.mem_cons_of_mem _ hf)
  waits := h.waits.tail
  evaluating u hu := by
    obtain ⟨f, hf, hid⟩ := h.evaluating u hu
    rcases List.mem_cons.mp hf with rfl | hf
    · rw [session.cache.isEvaluating_congr hid, hu] at he
      cases he
    · exact ⟨f, hf, hid⟩
  derived := h.derived
  reads := h.reads

/-- Another term is under way. -/
theorem push (h : Standing C rules frames session) (ht : session.bench.store.Owns t)
    (hl : session.cache.link? t = none) (hn : session.cache.isNormal t = false)
    (hw : ∀ f ∈ frames.head?, session.cache.Waits t f) : Standing C rules (t :: frames) session where
  canonical := h.canonical
  within := h.within
  apart := h.apart
  orderly := h.orderly
  owns f hf := by
    rcases List.mem_cons.mp hf with rfl | hf
    · exact ht
    · exact h.owns f hf
  unfinished f hf := by
    rcases List.mem_cons.mp hf with rfl | hf
    · exact ⟨hl, hn⟩
    · exact h.unfinished f hf
  waits := List.isChain_cons.mpr ⟨hw, h.waits⟩
  evaluating u hu := by
    obtain ⟨f, hf, hid⟩ := h.evaluating u hu
    exact ⟨f, List.mem_cons_of_mem _ hf, hid⟩
  derived := h.derived
  reads := h.reads

/-- Every term of the stack but the innermost is being evaluated or waits for a child that is unfinished. -/
theorem waiting (h : Standing C rules (t :: outer) session) (hu : u ∈ outer) :
    session.cache.isEvaluating u = true ∨
      ∃ c ∈ u.children, ∃ f, session.cache.Leads c f ∧ session.cache.isNormal f = false := by
  have hchain := h.waits
  have hopen := h.unfinished
  clear h
  induction outer generalizing t with
  | nil => cases hu
  | cons o outer ih =>
    rw [List.isChain_cons_cons] at hchain
    rcases List.mem_cons.mp hu with rfl | hu
    · rcases hchain.1 with he | ⟨c, hc, hl⟩
      · exact Or.inl he
      · exact Or.inr ⟨c, hc, t, hl, (hopen t List.mem_cons_self).2⟩
    · exact ih hu hchain.2 fun f hf => hopen f (List.mem_cons_of_mem _ hf)

/-- **A term whose children are settled is on the stack once only**, unless it is being evaluated. -/
theorem not_mem (h : Standing C rules (t :: outer) session) (he : session.cache.isEvaluating t = false)
    (hc : ∀ c ∈ t.children, ∃ e, session.cache.Leads c e ∧ session.cache.isNormal e = true) :
    t ∉ outer := by
  intro hmem
  rcases h.waiting hmem with he' | ⟨c, hcm, f, hf, hn⟩
  · rw [he] at he'
    cases he'
  · obtain ⟨e, hle, hne⟩ := hc c hcm
    rw [hle.unique hf, hn] at hne
    cases hne

/-- Nodes with the same id on the stack are the same. -/
theorem eq_of_id_eq (h : Standing C rules frames session) {f g : Term}
    (hf : session.bench.store.Owns f) (hg : g ∈ frames) (hid : g.id = f.id) : g = f :=
  (h.owns g hg).eq_of_id_eq hf hid

/-- A term rewrites to the end of its chain of links. -/
theorem derives (h : Standing C rules frames session) (ht : C.has session.bench.store t)
    (hl : session.cache.Leads t u) : Derives rules t.scope t.tree u.tree := by
  rcases h.derived.leads h.canonical h.orderly Derives.trans ht hl with rfl | hd
  · exact .refl _
  · exact hd

/-! ### Changes of the bench and of the knowledge -/

/-- The bench may be worked at. -/
theorem bench {bench : Bench} (h : Standing C rules frames session) (hb : bench.store.Canonical)
    (hg : working.grows session.bench bench) : Standing C rules frames { session with bench } where
  canonical := hb
  within rule hr := (h.within rule hr).mono hg.1
  apart rule hr := by
    rw [Store.scope_eq_of_le hg.1]
    exact h.apart rule hr
  orderly := h.orderly.mono hg.1
  owns f hf := (h.owns f hf).mono hg.1
  unfinished := h.unfinished
  waits := h.waits
  evaluating := h.evaluating
  derived := h.derived.transfer fun _ ht => C.mono hg.1 ht
  reads hq := (h.reads (hq.earlier hg.2)).mono hg.1

/-- The innermost term turns out to be a normal form. -/
theorem addNormal (h : Standing C rules (t :: outer) session) (he : session.cache.isEvaluating t = false)
    (hmem : t ∉ outer) (hc : ∀ c ∈ t.children, session.cache.isNormal c = true)
    (hv : session.bench.journal.Quiet → Evaluates rules t.scope t.tree t.tree) :
    Standing C rules outer { session with cache := session.cache.addNormal t } where
  canonical := h.canonical
  within := h.within
  apart := h.apart
  orderly := h.orderly.addNormal (h.unfinished t List.mem_cons_self).1 he
    (C.of_owns (h.owns t List.mem_cons_self)) hc
  owns f hf := h.owns f (List.mem_cons_of_mem _ hf)
  unfinished f hf := by
    have hf' := h.unfinished f (List.mem_cons_of_mem _ hf)
    refine ⟨hf'.1, Bool.eq_false_iff.mpr fun hn => ?_⟩
    rcases (Cache.isNormal_addNormal session.cache t f).mp hn with hid | hn
    · have hft : t = f := h.eq_of_id_eq (h.owns f (List.mem_cons_of_mem _ hf)) List.mem_cons_self hid
      exact hmem (hft ▸ hf)
    · rw [hf'.2] at hn
      cases hn
  waits := h.waits.tail.imp fun a b hw => by
    rcases hw with hw | ⟨c, hcb, hl⟩
    · exact Or.inl hw
    · exact Or.inr ⟨c, hcb, hl.congr fun _ => rfl⟩
  evaluating := (h.tail he).evaluating
  derived := h.derived
  reads hq := (h.reads hq).addNormal (C.of_owns (h.owns t List.mem_cons_self)) (hv hq)

/-- The innermost term is linked to another, which takes its place unless it is a normal form. -/
theorem setLink (h : Standing C rules (t :: outer) session) (he : session.cache.isEvaluating t = false)
    (hmem : t ∉ outer) (hnext : session.bench.store.Owns next) (hl : session.cache.link? next = none)
    (hne : next.id ≠ t.id) (hderives : Derives rules t.scope t.tree next.tree)
    (hleap : session.bench.journal.Quiet → Leap rules t.scope t.tree next.tree) :
    Standing C rules outer { session with cache := session.cache.setLink t next } ∧
      ∀ f ∈ outer.head?, (session.cache.setLink t next).Waits next f := by
  have ht := h.owns t List.mem_cons_self
  have hfin := h.unfinished t List.mem_cons_self
  have hscope : next.scope = t.scope :=
    (h.canonical.scope_eq hnext).trans (h.canonical.scope_eq ht).symm
  have hapart : ∀ rule ∈ rules, rule.scope? ≠ some t.scope := by
    intro rule hr
    rw [h.canonical.scope_eq ht]
    exact h.apart rule hr
  -- nothing but the term itself becomes linked
  have hother : ∀ f ∈ outer, f.id ≠ t.id := by
    intro f hf hid
    exact hmem (h.eq_of_id_eq ht (List.mem_cons_of_mem _ hf) hid ▸ hf)
  refine ⟨⟨h.canonical, h.within, h.apart, ?_, ?_, ?_, ?_, (h.tail he).evaluating,
    h.derived.setLink (C.of_owns ht) hderives, ?_⟩, ?_⟩
  · exact h.orderly.setLink hfin.1 hfin.2 he (C.of_owns hnext) hscope hapart (.stay hl) hne
  · exact fun f hf => h.owns f (List.mem_cons_of_mem _ hf)
  · intro f hf
    refine ⟨?_, (h.unfinished f (List.mem_cons_of_mem _ hf)).2⟩
    rw [Cache.link?_setLink_of_ne session.cache next (hother f hf)]
    exact (h.unfinished f (List.mem_cons_of_mem _ hf)).1
  · have hchain := h.waits.tail
    refine List.IsChain.imp_of_mem_imp (fun a b ha hb hw => ?_) hchain
    rcases hw with hw | ⟨c, hcb, hlead⟩
    · exact Or.inl hw
    · exact Or.inr ⟨c, hcb, Cache.leads_setLink_of_ne hfin.1 hlead (hother a ha)⟩
  · exact fun hq => (h.reads hq).setLink (C.of_owns ht) (hleap hq)
  · intro f hf
    rcases (List.isChain_cons.mp h.waits).1 f hf with hw | ⟨c, hcf, hlead⟩
    · exact Or.inl hw
    · have hnew := Cache.leads_setLink hfin.1 (.stay hl) hne hlead
      rw [if_pos rfl] at hnew
      exact Or.inr ⟨c, hcf, hnew⟩

/-- A chain of links is cut short. -/
theorem setLink_end {e : Term} (h : Standing C rules frames session) (ht : C.has session.bench.store t)
    (hl : session.cache.link? t ≠ none) (hlead : session.cache.Leads t e) :
    Standing C rules frames { session with cache := session.cache.setLink t e } where
  canonical := h.canonical
  within := h.within
  apart := h.apart
  orderly := h.orderly.setLink_end hl hlead
  owns := h.owns
  unfinished f hf := by
    have hid : f.id ≠ t.id := by
      intro hid
      exact hl ((session.cache.link?_congr hid.symm).trans (h.unfinished f hf).1)
    refine ⟨?_, (h.unfinished f hf).2⟩
    rw [Cache.link?_setLink_of_ne session.cache e hid]
    exact (h.unfinished f hf).1
  waits := h.waits.imp fun a b hw => by
    rcases hw with hw | ⟨c, hcb, hle⟩
    · exact Or.inl hw
    · exact Or.inr ⟨c, hcb, Cache.leads_setLink_end hl hlead hle⟩
  evaluating := h.evaluating
  derived := by
    refine h.derived.setLink ht ?_
    exact (h.derived.leads h.canonical h.orderly Derives.trans ht hlead).resolve_left fun he =>
      hl (he ▸ hlead.unlinked)
  reads hq := by
    refine (h.reads hq).setLink ht ?_
    rcases (h.reads hq).leads h.canonical h.orderly ht hlead with rfl | hleap
    · exact absurd hlead.unlinked hl
    · exact hleap

/-- The evaluation of the innermost term begins. -/
theorem beginEvaluating (h : Standing C rules (t :: outer) session) :
    Standing C rules (t :: outer) { session with cache := session.cache.beginEvaluating t } where
  canonical := h.canonical
  within := h.within
  apart := h.apart
  orderly := by
    obtain ⟨hl, hn⟩ := h.unfinished t List.mem_cons_self
    exact h.orderly.beginEvaluating hl hn
  owns := h.owns
  unfinished := h.unfinished
  waits := h.waits.imp fun a b hw => by
    rcases hw with hw | ⟨c, hcb, hl⟩
    · exact Or.inl ((session.cache.isEvaluating_beginEvaluating t b).mpr (Or.inr hw))
    · exact Or.inr ⟨c, hcb, hl.congr fun _ => rfl⟩
  evaluating u hu := by
    rcases (session.cache.isEvaluating_beginEvaluating t u).mp hu with hid | hu
    · exact ⟨t, List.mem_cons_self, hid⟩
    · exact h.evaluating u hu
  derived := h.derived
  reads hq := ⟨(h.reads hq).link, (h.reads hq).normal⟩

/-- The evaluation of the innermost term ends. The terms around it go on waiting, since it is none of them. -/
theorem endEvaluating (h : Standing C rules (t :: outer) session) (hmem : t ∉ outer) :
    Standing C rules (t :: outer) { session with cache := session.cache.endEvaluating t } where
  canonical := h.canonical
  within := h.within
  apart := h.apart
  orderly := h.orderly.endEvaluating t
  owns := h.owns
  unfinished := h.unfinished
  waits := by
    have hkeep : ∀ a b, b ∈ outer → session.cache.Waits a b → (session.cache.endEvaluating t).Waits a b := by
      intro a b hb hw
      have hid : t.id ≠ b.id := fun hid =>
        hmem (h.eq_of_id_eq (h.owns t List.mem_cons_self) (List.mem_cons_of_mem _ hb) hid.symm ▸ hb)
      rcases hw with hw | ⟨c, hcb, hl⟩
      · exact Or.inl ((session.cache.isEvaluating_endEvaluating t b).mpr ⟨hid, hw⟩)
      · exact Or.inr ⟨c, hcb, hl.congr fun _ => rfl⟩
    obtain ⟨hhead, htail⟩ := List.isChain_cons.mp h.waits
    rw [List.isChain_cons]
    exact ⟨fun b hb => hkeep t b (List.mem_of_mem_head? hb) (hhead b hb),
      List.IsChain.imp_of_mem_imp (fun a b _ hb hw => hkeep a b hb hw) htail⟩
  evaluating u hu := h.evaluating u ((session.cache.isEvaluating_endEvaluating t u).mp hu).2
  derived := h.derived
  reads hq := ⟨(h.reads hq).link, (h.reads hq).normal⟩

/-- Unfinished work is forgotten while nothing is under way. -/
theorem discardUnfinished (h : Standing C rules [] session) :
    Standing C rules [] { session with cache := session.cache.discardUnfinished } where
  canonical := h.canonical
  within := h.within
  apart := h.apart
  orderly := h.orderly.discardUnfinished
  owns := h.owns
  unfinished f hf := absurd hf List.not_mem_nil
  waits := .nil
  evaluating t ht := by
    rw [Cache.isEvaluating_discardUnfinished] at ht
    cases ht
  derived := h.derived.discardUnfinished
  reads hq := (h.reads hq).discardUnfinished

end Standing

end TermGraph
